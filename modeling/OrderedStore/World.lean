import OrderedStore.Engine.Scripted
import OrderedStore.Engine.Sled
import OrderedStore.Focus
import OrderedStore.Memory
import OrderedStore.Output
import OrderedStore.Registry

/-!
# Worlds of stores

A world holds the states of all stores that have been opened, memories, scripted engines and disk
stores, and what has been written so far.  Disk stores are kept by the package sled, whose state is of
type `φ`.

* `Root` names an opened store, `World.store` gives its calls.
* `Creator` opens a store of a name in a directory; `Registry.standard` has one for every backend.
-/

namespace OrderedStore

/-- The states of all opened stores, and the output. -/
structure World (φ : Type) where
  memories : List OrderedMap
  scripted : List Scripted
  disks : φ
  printed : List Printed

/-- An opened store, by its number among the stores of its kind. -/
inductive Root where
  | memory (index : Nat)
  /-- A memory whose iterators walk all keys, whatever bounds they are given. -/
  | unbounded (index : Nat)
  | scripted (atomic : Bool) (index : Nat)
  | disk (db : Nat)
  deriving DecidableEq

namespace World

variable {φ : Type}

/-- The world in which no store has been opened. -/
def ofDisks (disks : φ) : World φ := ⟨[], [], disks, []⟩

/-! ### Output -/

/-- Writes a piece. -/
def print (piece : Printed) : StateM (World φ) Unit :=
  modify fun world => { world with printed := world.printed ++ [piece] }

/-- Reports an event. -/
def report (event : Event) : StateM (World φ) Unit := print (.event event)

/-- Reports events in turn. -/
def reportAll : List Event → StateM (World φ) Unit
  | [] => pure ()
  | event :: events => do
    report event
    reportAll events

/-- Carries out an action in the world in which no store has been opened, and answers what was
written.  Only the disk stores outlast it. -/
def onDisks {α : Type} (action : StateM (World φ) α) : StateM φ (α × List Printed) := do
  let (answer, world) := action.run (.ofDisks (← get))
  set world.disks
  return (answer, world.printed)

/-! ### The stores of a world -/

/-- The memory with a number. -/
def memoryPart (index : Nat) : Part (World φ) OrderedMap :=
  Part.element ⟨memories, fun new world => { world with memories := new }⟩ index

/-- The scripted engine with a number. -/
def scriptedPart (index : Nat) : Part (World φ) Scripted :=
  Part.element ⟨scripted, fun new world => { world with scripted := new }⟩ index

/-- All disk stores. -/
def diskPart : Part (World φ) φ := ⟨disks, fun new world => { world with disks := new }⟩

/-- The memory with a number as a store, which reports how many entries it has when it is closed. -/
def memoryStore (index : Nat) : Store (World φ) :=
  { Memory.store.focus (memoryPart index) with
    close := do
      .ofState (report (.memoryClosed ((memoryPart index).read (← getThe (World φ))).size))
      (memoryPart index).call Memory.store.close }

/-- The store over an engine of a kind, which is reported when it is closed. -/
def engineStore {τ : Type} (part : Part (World φ) τ) (kind : String) (engine : Engine τ) :
    Store (World φ) :=
  { engine.store.focus part with
    close := do
      .ofState (report (.closingEngine kind))
      part.call engine.close }

/-- The calls of an opened store. -/
def store (sled : Sled φ) : Root → Store (World φ)
  | .memory index => memoryStore index
  | .unbounded index => (memoryStore index).unbounded
  | .scripted atomic index => engineStore (scriptedPart index) "scripted" (Scripted.engine atomic)
  | .disk db => engineStore diskPart "sled" (SledEngine.engine sled db)

/-- What is reported when the statistics of a store are gathered. -/
def statsEvents (sled : Sled φ) (root : Root) (world : World φ) : List Event :=
  match root with
  | .disk db =>
    match sled.sizeOnDisk db world.disks with
    | .ok _ => []
    | .error text => [.sizeUnknown text]
  | _ => []

/-! ### Opening stores -/

/-- Opens a new memory that holds the given map. -/
def addMemory (map : OrderedMap) : StateM (World φ) Nat :=
  modifyGet fun world => (world.memories.length, { world with memories := world.memories ++ [map] })

/-- Opens a new scripted engine. -/
def addScripted : StateM (World φ) Nat :=
  modifyGet fun world =>
    (world.scripted.length, { world with scripted := world.scripted ++ [.empty] })

/-- Opens a new disk store that cannot be opened again. -/
def addDisk (sled : Sled φ) : StoreM (World φ) Nat := diskPart.call (.ofSled sled.openTemporary)

/-- The path of the disk store of a name in a directory. -/
def pathOf (name dir : String) : String := Path.join dir (name ++ ".db")

/-- Opens the disk store at a path. -/
def openDisk (sled : Sled φ) (path : String) : StoreM (World φ) Nat := do
  .ofState (report (.openingDatabase path))
  diskPart.call (.ofSled (sled.openAt path))

end World

/-! ### Creators -/

/-- Opens the store of a name in a directory. -/
abbrev Creator (φ : Type) := (name dir : String) → StoreM (World φ) Root

namespace Creator

variable {φ : Type}

/-- Opens a new memory, whatever the name and the directory. -/
def memory : Creator φ := fun _ _ => return .memory (← .ofState (World.addMemory .empty))

/-- Opens the disk store of the name in the directory. -/
def disk (sled : Sled φ) : Creator φ := fun name dir =>
  return .disk (← World.openDisk sled (World.pathOf name dir))

end Creator

namespace Registry

variable {φ : Type}

/-- The registry with a creator for every backend. -/
def standard (sled : Sled φ) : Registry (Creator φ) :=
  let (registry, _) := empty.register .memory .memory false
  (registry.register .disk (.disk sled) false).1

/-- Opens the store of a configuration. -/
def openStore (registry : Registry (Creator φ)) (config : Config) : StoreM (World φ) Root := do
  let creator ← .ofExcept (registry.creator config.backend)
  .ofState (World.report (.openingStore config.name config.backend config.dir))
  creator config.name config.dir

end Registry

end OrderedStore
