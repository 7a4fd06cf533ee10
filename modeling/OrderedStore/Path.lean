/-!
# Paths

The texts that name directories and files, read component by component.

* `Path.components` drops empty pieces and dots, except a dot at the very beginning.
* `Path.resolve` follows dots upwards, without looking at a file system.
* `Path.join` puts a path behind a directory; an absolute path stands for itself.
* `Path.relative` is what is left of a joined path when the directory is taken away again.
-/

namespace OrderedStore.Path

/-- A step of a path. -/
inductive Component where
  | root
  | current
  | parent
  | name (text : List Char)
  deriving DecidableEq

/-- The pieces between slashes; there is always at least one. -/
def pieces : List Char → List (List Char)
  | [] => [[]]
  | char :: rest =>
    if char = '/' then [] :: pieces rest
    else
      match pieces rest with
      | [] => [[char]]
      | piece :: later => (char :: piece) :: later

/-- Whether a piece stands for nothing behind the beginning of a path. -/
def isIdle (piece : List Char) : Bool := piece.isEmpty || piece = ['.']

/-- The component of a piece. -/
def componentOf (piece : List Char) : Component :=
  if piece = ['.', '.'] then .parent else .name piece

/-- What the first piece adds to the components: a slash at the beginning leaves it empty. -/
def firstComponent (path : List Char) : List Component :=
  match path with
  | '/' :: _ => [.root]
  | _ => if (pieces path).head? = some ['.'] then [.current] else []

/-- The components of a path. -/
def components (path : String) : List Component :=
  firstComponent path.toList ++
    ((pieces path.toList).filter fun piece => !isIdle piece).map componentOf

/-- Takes one component behind those that are already followed, the last one first. -/
def follow (followed : List Component) : Component → List Component
  | .root => [.root]
  | .current => followed
  | .parent =>
    match followed with
    | .name _ :: rest => rest
    | [.root] => [.root]
    | _ => .parent :: followed
  | .name text => .name text :: followed

/-- The components of a path without dots, two dots having taken a name away. -/
def resolve (path : String) : List Component :=
  ((components path).foldl follow []).reverse

/-- Whether a path begins at the root. -/
def isAbsolute (path : String) : Bool := path.toList.head? = some '/'

/-- A path behind a directory. -/
def join (dir path : String) : String :=
  if isAbsolute path then path
  else if dir.isEmpty || dir.toList.getLast? = some '/' then dir ++ path
  else dir ++ "/" ++ path

/-- The path without empty pieces and dots at either end. -/
def trim (path : String) : String :=
  let inner := ((pieces path.toList).dropWhile isIdle).reverse.dropWhile isIdle
  String.intercalate "/" (inner.reverse.map String.ofList)

/-- What is left of a path joined behind a directory when that directory is taken away: an absolute
path was never behind it and is kept as it is written. -/
def relative (path : String) : String :=
  if isAbsolute path then path else trim path

end OrderedStore.Path
