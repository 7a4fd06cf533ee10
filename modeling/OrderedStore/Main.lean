import OrderedStore.CommandLine

/-!
# The program

Runs the command line.  A disk store is kept as the text of its dump, in a file at its path; a file
that cannot be read is a store without entries.
-/

namespace OrderedStore.CommandLine

/-- The path of the disk store that the arguments name. -/
def pathOf? (args : List String) : Option String :=
  match parse args with
  | .ok ⟨⟨name, .disk, dir⟩, _⟩ => some (World.pathOf name dir)
  | _ => none

/-- The database of a file. -/
def disksOf (path text : String) : Disks :=
  .ofContents (Path.resolve path) (Contents.ofList ((Dump.read? text.toList).getD []))

/-- What is on disk when a run with the arguments begins. -/
def loadDisks (args : List String) : IO Disks := do
  match pathOf? args with
  | none => pure .empty
  | some path =>
    try
      return disksOf path (← IO.FS.readFile path)
    catch _ => pure .empty

end OrderedStore.CommandLine

/-- Shows the entries of the store that the arguments name. -/
def main (args : List String) : IO UInt32 := do
  let disks ← OrderedStore.CommandLine.loadDisks args
  let (exit, _) := (OrderedStore.CommandLine.run .plain args).run disks
  IO.print exit.out
  IO.eprint exit.err
  return exit.code.toUInt32
