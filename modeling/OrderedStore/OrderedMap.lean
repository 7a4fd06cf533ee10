import OrderedStore.Tree.Update
import OrderedStore.Tree.Walk

/-!
# Ordered maps

A map from byte strings to byte strings, held in a height-balanced tree together with its size.
Maps are values: an older map is not changed by what is done to a newer one.
-/

namespace OrderedStore

/-- A tree with the number of its entries. -/
structure OrderedMap where
  root : Tree
  size : Nat
  deriving DecidableEq

namespace OrderedMap

/-- The map without entries. -/
def empty : OrderedMap := ⟨.leaf, 0⟩

instance : Inhabited OrderedMap := ⟨empty⟩

/-- Whether the map has no entries. -/
def isEmpty (map : OrderedMap) : Bool := map.size == 0

/-- The entries in increasing order of their keys. -/
def toList (map : OrderedMap) : List Entry := map.root.toList

/-- The value stored for a key. -/
def get? (map : OrderedMap) (key : Bytes) : Option Bytes := map.root.get? key

/-- Whether a value is stored for a key. -/
def contains (map : OrderedMap) (key : Bytes) : Bool := (map.get? key).isSome

/-- Stores an entry and returns the value that it replaces. -/
def insert (map : OrderedMap) (entry : Entry) : OrderedMap × Option Bytes :=
  let (root, replaced) := map.root.insert entry
  (⟨root, if replaced.isNone then map.size + 1 else map.size⟩, replaced)

/-- Removes the entry of a key and returns its value.  The tree is searched first, and is not
rebuilt if the key is absent. -/
def remove (map : OrderedMap) (key : Bytes) : OrderedMap × Option Bytes :=
  if map.contains key then
    let (root, removed) := map.root.remove key
    (⟨root, if removed.isSome then map.size - 1 else map.size⟩, removed)
  else (map, none)

/-! ### Walks -/

variable {m : Type → Type} [Monad m]

/-- Shows every entry in increasing order until the visitor asks to stop. -/
def ascend (map : OrderedMap) (visit : Entry → m Bool) : m Unit :=
  discard (map.root.ascend .all visit)

/-- Shows the entries with a key not below `pivot` in increasing order. -/
def ascendFrom (map : OrderedMap) (pivot : Bytes) (visit : Entry → m Bool) : m Unit :=
  discard (map.root.ascend ⟨some pivot, none⟩ visit)

/-- Shows the entries with a key from `lower` to below `upper` in increasing order. -/
def ascendRange (map : OrderedMap) (lower upper : Bytes) (visit : Entry → m Bool) : m Unit :=
  discard (map.root.ascend ⟨some lower, some upper⟩ visit)

/-- Shows every entry in decreasing order. -/
def descend (map : OrderedMap) (visit : Entry → m Bool) : m Unit :=
  discard (map.root.descend none visit)

/-- Shows the entries with a key up to and including `pivot` in decreasing order. -/
def descendFrom (map : OrderedMap) (pivot : Bytes) (visit : Entry → m Bool) : m Unit :=
  discard (map.root.descend (some pivot) visit)

/-! ### Written form -/

/-- The tree of the map, with every height, and its size. -/
def render (map : OrderedMap) : String :=
  "OrderedMap \x7b root: " ++ map.root.render ++ ", len: " ++ toString map.size ++ " \x7d"

end OrderedMap

end OrderedStore
