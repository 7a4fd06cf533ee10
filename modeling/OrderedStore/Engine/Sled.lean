import OrderedStore.Engine.Basic

/-!
# The engine over sled

Stores on disk are kept in databases of the package sled.  `Sled` lists the calls of the package that
are made; what they do is left open.  `SledEngine.engine` is the engine over an opened database.

The package takes the two sides of a range one by one, walks it upwards, and is not asked for a range
whose sides have crossed.
-/

namespace OrderedStore

/-- A call of the package, which fails in its own words. -/
abbrev SledM (φ : Type) := ExceptT String (StateM φ)

/-- One side of a range of keys. -/
inductive Bound where
  | unbounded
  | included (key : Bytes)
  | excluded (key : Bytes)
  deriving DecidableEq

/-- The calls of the package, on a state `φ` of all its databases.  An opened database is known by a
number. -/
structure Sled (φ : Type) where
  /-- Opens the database at a path, and makes it if there is none. -/
  openAt : (path : String) → SledM φ Nat
  /-- Opens a new database that is gone after its last use. -/
  openTemporary : SledM φ Nat
  get : (db : Nat) → (key : Bytes) → SledM φ (Option Bytes)
  /-- Sets a key and answers its former value. -/
  insert : (db : Nat) → (key value : Bytes) → SledM φ (Option Bytes)
  /-- Removes a key and answers its former value. -/
  remove : (db : Nat) → (key : Bytes) → SledM φ (Option Bytes)
  /-- The entries between two sides in increasing order, or the errors in their places. -/
  range : (db : Nat) → (lower upper : Bound) → StateM φ (List (Except String Entry))
  /-- Applies operations as one. -/
  applyBatch : (db : Nat) → List Operation → SledM φ Unit
  /-- Waits until all writes are durable and answers the number of bytes that had to be written. -/
  flush : (db : Nat) → SledM φ Nat
  len : (db : Nat) → φ → Nat
  sizeOnDisk : (db : Nat) → φ → Except String Nat

/-- A call of the package as a call on a store: its words become those of a failure. -/
def StoreM.ofSled {φ α : Type} (call : SledM φ α) : StoreM φ α := call.adapt .backend

namespace SledEngine

variable {φ : Type} (sled : Sled φ) (db : Nat)

/-! ### Ranges -/

/-- The lower side of a range belongs to it. -/
def lowerSide (bounds : Bounds) : Bound := bounds.lower.elim .unbounded .included

/-- The upper side of a range does not belong to it. -/
def upperSide (bounds : Bounds) : Bound := bounds.upper.elim .unbounded .excluded

/-- Whether both bounds are given and the lower one is not below the upper one. -/
def haveCrossed (bounds : Bounds) : Bool :=
  match bounds.lower, bounds.upper with
  | some lower, some upper => decide (upper ≤ lower)
  | _, _ => false

/-- The items of a range; a range whose bounds have crossed has none. -/
def cursor (direction : Direction) (bounds : Bounds) : StoreM φ (List Item) :=
  if haveCrossed bounds then pure []
  else do
    let entries ← .ofState (sled.range db (lowerSide bounds) (upperSide bounds))
    let items := entries.map fun entry => entry.mapError .backend
    match direction with
    | .ascending => return items
    | .descending => return items.reverse

/-! ### Writes and statistics -/

/-- Waits for the writes before to be durable, if this is asked for. -/
def flushIf (sync : Bool) : StoreM φ Unit := do
  if sync then
    let _ ← .ofSled (sled.flush db)

/-- Sets or deletes a key. -/
def write : Operation → StoreM φ Unit
  | .set key value => do
    let _ ← .ofSled (sled.insert db key value)
  | .delete key => do
    let _ ← .ofSled (sled.remove db key)

/-- The statistics; the number of bytes on disk is left out if it cannot be read. -/
def stats (state : φ) : Stats :=
  [("database.type", "sled"), ("database.size", toString (sled.len db state))] ++
    match sled.sizeOnDisk db state with
    | .ok bytes => [("database.disk_bytes", toString bytes)]
    | .error _ => []

/-- The engine over an opened database. -/
def engine : Engine φ where
  atomic := true
  get key := .ofSled (sled.get db key)
  write sync op := do
    write sled db op
    flushIf sled db sync
  cursor := cursor sled db
  applyAll sync ops := do
    .ofSled (sled.applyBatch db ops)
    flushIf sled db sync
  stats := stats sled db
  close := do
    let _ ← .ofSled (sled.flush db)

end SledEngine

end OrderedStore
