import OrderedStore.OrderedMap
import OrderedStore.Store

/-!
# Stores in memory

A store whose state is an ordered map.  Its iterators show the map as it was when they were made:
the range is gathered by a walk through the tree.  The tree descends over closed ranges only, so a
descending walk skips an entry at its upper bound and stops below its lower bound on its own.  The module
`Memory.Walker` has iterators whose walk runs in a thread of its own.
-/

namespace OrderedStore.Memory

/-! ### Gathering a range -/

/-- The state of a walk that gathers entries. -/
structure Gathering where
  /-- The key that is still to be skipped. -/
  skip : Option Bytes
  /-- The entries seen so far, the latest first. -/
  seen : List Entry

/-- A key is below the key at which a walk stops. -/
def isBelow (lowest : Option Bytes) (key : Bytes) : Bool :=
  lowest.any fun lowest => decide (key < lowest)

/-- Takes an entry up, unless it is the one to be skipped.  The walk stops at the first entry below
`lowest`. -/
def gather (lowest : Option Bytes) (entry : Entry) : StateM Gathering Bool := do
  let gathering ← get
  -- Keys are unique, so the entry at the upper bound comes at most once.
  if gathering.skip = some entry.key then
    set { gathering with skip := none }
    pure true
  else if isBelow lowest entry.key then pure false
  else
    set { gathering with seen := entry :: gathering.seen }
    pure true

/-- A bound that is left to the visitor: only a descending walk does not keep to the bounds. -/
def late (bound : Option Bytes) : Direction → Option Bytes
  | .ascending => none
  | .descending => bound

/-- Shows a visitor the entries from which a range of a map is made, in the given direction. -/
def walkBy {m : Type → Type} [Monad m] (map : OrderedMap) (direction : Direction) (bounds : Bounds)
    (visit : Entry → m Bool) : m Unit :=
  match direction, bounds with
  | .ascending, ⟨none, none⟩ => map.ascend visit
  | .ascending, ⟨some lower, none⟩ => map.ascendFrom lower visit
  | .ascending, ⟨lower, some upper⟩ => map.ascendRange (lower.getD []) upper visit
  | .descending, ⟨_, none⟩ => map.descend visit
  | .descending, ⟨_, some upper⟩ => map.descendFrom upper visit

/-- The walk over a range of a map in the given direction. -/
def walk (map : OrderedMap) (direction : Direction) (bounds : Bounds) : StateM Gathering Unit :=
  walkBy map direction bounds (gather (late bounds.lower direction))

/-- The entries of a range of a map, in the order of the walk. -/
def range (map : OrderedMap) (direction : Direction) (bounds : Bounds) : List Entry :=
  ((walk map direction bounds).run ⟨late bounds.upper direction, []⟩).2.seen.reverse

/-! ### The store -/

/-- The map after a write. -/
def applyTo (map : OrderedMap) : Operation → OrderedMap
  | .set key value => (map.insert ⟨key, value⟩).1
  | .delete key => (map.remove key).1

/-- Applies operations in order. -/
def applyAll (ops : List Operation) : StoreM OrderedMap Unit :=
  modify fun map => ops.foldl applyTo map

/-- The statistics of a memory: its kind and its number of entries. -/
def stats (map : OrderedMap) : Stats :=
  [("database.type", "memDB"), ("database.size", toString map.size)]

/-- The store that is held in an ordered map.  Every write is immediately in place, so waiting for
durability changes nothing; closing keeps the entries. -/
def store : Store OrderedMap where
  get key := do
    .ofExcept (requireKey key)
    return (← getThe OrderedMap).get? key
  has key := do
    .ofExcept (requireKey key)
    return (← getThe OrderedMap).contains key
  write _ op := do
    .ofExcept (requireKey op.key)
    modify fun map => applyTo map op
  iterator direction bounds := do
    .ofExcept (requireBounds bounds)
    return .snapshot bounds (range (← getThe OrderedMap) direction bounds)
  newBatch := pure (.queued (fun _ => applyAll) .empty)
  stats := stats
  close := pure ()

end OrderedStore.Memory
