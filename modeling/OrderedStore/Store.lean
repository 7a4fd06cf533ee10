import OrderedStore.Batch
import OrderedStore.Iterator
import OrderedStore.Transaction

/-!
# Stores

What every ordered key-value store offers: reading and writing single keys, walking a range of
keys in either direction, and batches.  A store is given by its calls on a state `σ`, so that a
memory, a storage engine and a view of another store are used in the same way.

* `Points` are the calls on single keys.
* `Store` adds iterators, batches, statistics and closing.
* `Store.iterateStem` walks the keys that begin with a stem.
* `Store.runTransaction` runs a transaction on a store.
-/

namespace OrderedStore

/-- The statistics of a store: names with their values. -/
abbrev Stats := List (String × String)

namespace Stats

/-- Sets the value of a name, in place of the one that the name had. -/
def set (stats : Stats) (stat : String × String) : Stats :=
  stats.filter (fun other => other.1 != stat.1) ++ [stat]

/-- Sets values one after the other. -/
def setAll (stats others : Stats) : Stats := others.foldl set stats

end Stats

/-- Reading and writing single keys. -/
structure Points (σ : Type) where
  /-- The value stored for a key. -/
  get : Bytes → StoreM σ (Option Bytes)
  /-- Whether a value is stored for a key. -/
  has : Bytes → StoreM σ Bool
  /-- Sets or deletes a key, and waits for the write to be durable if `sync` is true.  Deleting an
  absent key is not an error. -/
  write : (sync : Bool) → Operation → StoreM σ Unit

/-- The calls of an ordered store. -/
structure Store (σ : Type) extends Points σ where
  /-- An iterator over a range of keys. -/
  iterator : Direction → Bounds → StoreM σ Iterator
  /-- A batch without operations that writes to the store. -/
  newBatch : StateM σ (Batch σ)
  /-- The statistics in the present state. -/
  stats : σ → Stats
  /-- Closes the store. -/
  close : StoreM σ Unit

namespace Store

variable {σ : Type}

/-- Walks the keys that begin with `stem` in increasing order and shows them as they are. -/
def iterateStem (store : Store σ) (stem : Bytes) : StoreM σ Iterator :=
  store.iterator .ascending (.ofStem stem)

/-- Writes the operations one after the other and stops at the first that fails. -/
def writeAll (store : Store σ) (sync : Bool) : List Operation → StoreM σ Unit
  | [] => pure ()
  | op :: ops => do
    store.write sync op
    store.writeAll sync ops

/-- Runs a transaction whose steps are handed the store itself. -/
def runTransaction (store : Store σ) (tx : Transaction (Store σ) σ) :
    StateM σ (Except StoreError Unit × Transaction (Store σ) σ) :=
  tx.runOn store fun key => store.write false (.delete key)

/-- A store that walks all its keys, whatever bounds it is asked for. -/
def unbounded (store : Store σ) : Store σ :=
  { store with iterator := fun direction _ => store.iterator direction .all }

end Store

end OrderedStore
