import OrderedStore.Json.Reader

/-!
# Codecs

What a package does that reads and writes JSON, and derives from the declaration of a type how its
values are read and written.  A type is declared as a string, as an enumeration of names, or as a
record of fields with a default.

* `Json.Codec` are the parts of such a package.
* `Json.Codec.strict` is a codec over `Json.read?` and `Json.quote`.
-/

namespace OrderedStore.Json

/-- A field of a record, as it is declared: its name, and how what is written for it changes a
record. -/
structure Field (α : Type) where
  name : String
  read : Json → Option (α → α)

/-- A member of an object.  Its name is absent if it is no proper string. -/
abbrev NamedValue := Option (List Char) × Json

/-- A package that reads and writes values of declared types. -/
structure Codec where
  /-- Writes a string. -/
  writeText : String → List Char
  /-- Writes a value of an enumeration by its name. -/
  writeName : String → List Char
  /-- Writes a record, whose fields are given by their names and what is written for their values. -/
  writeRecord : List (String × List Char) → List Char
  /-- Reads a string. -/
  readText : Json → Option String
  /-- Reads a value of an enumeration, whose values are given by their names. -/
  readName : {α : Type} → (names : List (String × α)) → Json → Option α
  /-- Reads a record with the given fields, and a default for those that are missing. -/
  readRecord : {α : Type} → (default : α) → (fields : List (Field α)) → Json → Option α
  /-- Reads a whole text as a value of a type that is read in the given way. -/
  readFrom : {α : Type} → (read : Json → Option α) → (text : String) → Option α

namespace Codec

/-! ### Writing -/

/-- Members with commas between them. -/
def writeMembers : List (String × List Char) → List Char
  | [] => []
  | [(name, written)] => quote name.toList ++ ':' :: written
  | (name, written) :: fields => quote name.toList ++ ':' :: (written ++ ',' :: writeMembers fields)

/-- A record as a compact object. -/
def writeObject (fields : List (String × List Char)) : List Char :=
  '\x7b' :: (writeMembers fields ++ ['\x7d'])

/-! ### Reading -/

/-- The text of a string. -/
def textOf? : Json → Option String
  | .string (some text) => some (String.ofList text)
  | _ => none

/-- A value of an enumeration is written as its name, or as an object whose only member has this
name and no value. -/
def namedOf? {α : Type} (names : List (String × α)) : Json → Option α
  | .string (some name) => names.lookup (String.ofList name)
  | .object [(some name, .null)] => names.lookup (String.ofList name)
  | _ => none

section Records

variable {α : Type} (default : α)

/-- Reads a record from members.  Those that have the name of no field are ignored, and a field must
not be given again. -/
def readMembers (fields : List (Field α)) : List NamedValue → Option α
  | [] => some default
  | (none, _) :: _ => none
  | (some name, json) :: members =>
    match fields.find? fun field => field.name.toList = name with
    | none => readMembers fields members
    | some field =>
      if (members.map Prod.fst).contains (some name) then none
      else (field.read json).bind fun update => (readMembers fields members).map update

/-- Reads a record from items, one for each of the first fields. -/
def readItems : List (Field α) → List Json → Option α
  | _, [] => some default
  | [], _ :: _ => none
  | field :: fields, item :: items =>
    (field.read item).bind fun update => (readItems fields items).map update

/-- Reads a record from an object or an array. -/
def recordOf? (fields : List (Field α)) : Json → Option α
  | .object members => readMembers default fields members
  | .array items => readItems default fields items
  | _ => none

end Records

/-- The codec that writes compact texts and reads well-formed ones only. -/
def strict : Codec where
  writeText text := quote text.toList
  writeName name := quote name.toList
  writeRecord := writeObject
  readText := textOf?
  readName := namedOf?
  readRecord := recordOf?
  readFrom read text := (Json.read? text.toList).bind read

end Codec

end OrderedStore.Json
