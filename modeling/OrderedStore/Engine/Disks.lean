import OrderedStore.Engine.Sled
import OrderedStore.Engine.Sorted
import OrderedStore.Path

/-!
# Databases over sorted contents

The plainest databases that the engine over sled can have: each of them is sorted contents, and those
that were opened at a path are found again at the place to which the path leads.
-/

namespace OrderedStore

/-- All databases by their numbers, and the places of those that can be opened again. -/
structure Disks where
  databases : List Contents
  places : List (List Path.Component × Nat)

/-- The key is reached by a range that has this lower side. -/
def Bound.isBelow : Bound → Bytes → Bool
  | unbounded, _ => true
  | included bound, key => decide (bound ≤ key)
  | excluded bound, key => decide (bound < key)

/-- The key is reached by a range that has this upper side. -/
def Bound.isAbove : Bound → Bytes → Bool
  | unbounded, _ => true
  | included bound, key => decide (key ≤ bound)
  | excluded bound, key => decide (key < bound)

/-- The entries between two sides of a range. -/
def Contents.between (contents : Contents) (lower upper : Bound) : List Entry :=
  contents.entries.filter fun entry => lower.isBelow entry.key && upper.isAbove entry.key

namespace Disks

/-- No databases. -/
def empty : Disks := ⟨[], []⟩

/-- The only database, at a place. -/
def ofContents (place : List Path.Component) (contents : Contents) : Disks :=
  ⟨[contents], [(place, 0)]⟩

/-- The contents of a database. -/
def contents (disks : Disks) (db : Nat) : Contents := disks.databases.getD db .empty

/-- The database at a place, if there is one. -/
def databaseAt? (disks : Disks) (place : List Path.Component) : Option Nat :=
  (disks.places.find? fun known => known.1 = place).map Prod.snd

/-- Makes a database. -/
def make : SledM Disks Nat :=
  modifyGet fun disks =>
    (disks.databases.length, { disks with databases := disks.databases ++ [.empty] })

/-- Opens the database at the place of a path. -/
def openAt (path : String) : SledM Disks Nat := do
  match (← getThe Disks).databaseAt? (Path.resolve path) with
  | some db => return db
  | none =>
    let db ← make
    modify fun disks => { disks with places := (Path.resolve path, db) :: disks.places }
    return db

/-- Changes the contents of a database and answers what they were before. -/
def change (db : Nat) (f : Contents → Contents) : SledM Disks Contents :=
  modifyGet fun disks =>
    (disks.contents db, { disks with databases := disks.databases.set db (f (disks.contents db)) })

/-- The calls on databases over sorted contents.  None of them fails, and how many bytes a database
takes is not told. -/
def sled : Sled Disks where
  openAt := openAt
  openTemporary := make
  get db key := return ((← getThe Disks).contents db).get? key
  insert db key value := return (← change db fun contents => contents.insert ⟨key, value⟩).get? key
  remove db key := return (← change db fun contents => contents.erase key).get? key
  range db lower upper := return (((← getThe Disks).contents db).between lower upper).map .ok
  applyBatch db ops := do
    let _ ← change db fun contents => ops.foldl Contents.applyTo contents
  flush _ := return 0
  len db disks := (disks.contents db).size
  sizeOnDisk _ _ := .ok 0

end Disks

end OrderedStore
