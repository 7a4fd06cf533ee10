import OrderedStore.Engine.Sorted
import OrderedStore.Proofs.Memory.Range
import OrderedStore.Proofs.Simulation.Store

/-!
# The reference store

Sorted contents are themselves a store: the plainest one, without a tree, an engine or a cursor.
A backend is right if it cannot be told apart from it.

* `Contents.store` is the reference store; `Contents.run_get`, `Contents.run_has`, `Contents.run_write` and
  `Contents.run_iterator` are its calls.
* `Memory.store_alike` compares stores in memory with the reference.
-/

namespace OrderedStore

/-! ### The reference -/

namespace Contents

/-- Applies operations in order. -/
def applyAll (ops : List Operation) : StoreM Contents Unit :=
  modify fun contents => ops.foldl applyTo contents

/-- The store that is nothing but sorted contents. -/
def store : Store Contents where
  get key := do
    .ofExcept (requireKey key)
    return (← getThe Contents).get? key
  has key := do
    .ofExcept (requireKey key)
    return ((← getThe Contents).get? key).isSome
  write _ op := do
    .ofExcept (requireKey op.key)
    modify fun contents => contents.applyTo op
  iterator direction bounds := do
    .ofExcept (requireBounds bounds)
    return .snapshot bounds ((← getThe Contents).range direction bounds)
  newBatch := pure (.queued (fun _ => applyAll) .empty)
  stats _ := []
  close := pure ()

/-! ### Calls of the reference -/

section Calls

variable (contents : Contents) {key : Bytes} {op : Operation} {bounds : Bounds}

theorem run_get (h : key ≠ []) :
    (store.get key).run.run contents = (.ok (contents.get? key), contents) := by
  show (StoreM.ofExcept (requireKey key) >>= _).run.run contents = _
  rw [requireKey_of_ne_nil h]
  rfl

theorem run_has (h : key ≠ []) :
    (store.has key).run.run contents = (.ok (contents.get? key).isSome, contents) := by
  show (StoreM.ofExcept (requireKey key) >>= _).run.run contents = _
  rw [requireKey_of_ne_nil h]
  rfl

theorem store_write_of_eq_nil (h : op.key = []) (sync : Bool) :
    store.write sync op = throw .emptyKey := by
  show (StoreM.ofExcept (requireKey op.key) >>= _) = _
  rw [h]
  rfl

theorem run_write (h : op.key ≠ []) (sync : Bool) :
    (store.write sync op).run.run contents = (.ok (), contents.applyTo op) := by
  show (StoreM.ofExcept (requireKey op.key) >>= _).run.run contents = _
  rw [requireKey_of_ne_nil h]
  rfl

theorem store_iterator_of_hasEmpty (h : bounds.hasEmpty = true) (direction : Direction) :
    store.iterator direction bounds = throw .emptyKey := by
  show (StoreM.ofExcept (requireBounds bounds) >>= _) = _
  rw [requireBounds_of_hasEmpty h]
  rfl

theorem run_iterator (h : bounds.hasEmpty = false) (direction : Direction) :
    (store.iterator direction bounds).run.run contents =
      (.ok (.snapshot bounds (contents.range direction bounds)), contents) := by
  show (StoreM.ofExcept (requireBounds bounds) >>= _).run.run contents = _
  rw [requireBounds_of_hasEmpty_eq_false h]
  rfl

end Calls

end Contents

/-! ### Memory -/

namespace Memory

theorem holds_applyTo {map : OrderedMap} {contents : Contents} (hc : map.Holds contents)
    (op : Operation) : (applyTo map op).Holds (contents.applyTo op) := by
  cases op with
  | set key value => exact hc.insert ⟨key, value⟩
  | delete key => exact hc.remove key

theorem holds_foldl_applyTo {map : OrderedMap} {contents : Contents} (hc : map.Holds contents)
    (ops : List Operation) :
    (ops.foldl applyTo map).Holds (ops.foldl Contents.applyTo contents) := by
  induction ops generalizing map contents with
  | nil => exact hc
  | cons op ops ih => exact ih (holds_applyTo hc op)

/-- A store in memory cannot be told apart from the contents of its map. -/
theorem store_alike : store.Alike OrderedMap.Holds Contents.store where
  get key :=
    .bind (.ofExcept _) fun _ _ _ => .bind .get fun _ _ hc => .pure (hc.get?_eq key)
  has key :=
    .bind (.ofExcept _) fun _ _ _ => .bind .get fun _ _ hc =>
      .pure (congrArg Option.isSome (hc.get?_eq key))
  write _ op := .bind (.ofExcept _) fun _ _ _ => .modify fun _ _ hc => holds_applyTo hc op
  iterator direction bounds := by
    refine .bind (.ofExcept _) fun _ _ _ => .bind .get fun map contents hc => .pure ?_
    rw [range_eq hc]
    exact Iterator.Alike.refl _
  newBatch :=
    .pure <| Batch.alike_queued (fun _ ops _ => .modify fun _ _ hc => holds_foldl_applyTo hc ops)
      WriteQueue.hasKeys_empty

end Memory

end OrderedStore
