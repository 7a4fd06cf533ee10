import OrderedStore.OrderedMap
import OrderedStore.Proofs.Tree.Balance

/-!
# The invariant of ordered maps

A map is well formed if its tree is ordered and balanced with exact heights and its size is the
number of nodes.  Insertion and removal keep a map well formed, so every map that they make of the
empty one is.

* `OrderedMap.Reachable` are the maps made of the empty one by insertions and removals.
* `OrderedMap.WellFormed` is the invariant; `WellFormed.insert` and `WellFormed.remove` are its
  steps, and `Reachable.wellFormed` is the run.
-/

namespace OrderedStore.OrderedMap

/-! ### What the operations answer and leave -/

@[simp] theorem insert_snd (map : OrderedMap) (entry : Entry) :
    (map.insert entry).2 = map.get? entry.key :=
  Tree.insert_snd entry map.root

theorem root_insert (map : OrderedMap) (entry : Entry) :
    (map.insert entry).1.root = (map.root.insert entry).1 := rfl

theorem size_insert (map : OrderedMap) (entry : Entry) :
    (map.insert entry).1.size + (map.get? entry.key).toList.length = map.size + 1 := by
  show (if (map.root.insert entry).2.isNone then map.size + 1 else map.size) + _ = _
  rw [Tree.insert_snd]
  show (if (map.get? entry.key).isNone then map.size + 1 else map.size) + _ = _
  cases map.get? entry.key <;> rfl

theorem remove_of_eq_none {map : OrderedMap} {key : Bytes} (h : map.get? key = none) :
    map.remove key = (map, none) := by
  rw [remove, contains, h]
  rfl

theorem remove_of_eq_some {map : OrderedMap} {key value : Bytes} (h : map.get? key = some value) :
    map.remove key = (⟨(map.root.remove key).1, map.size - 1⟩, some value) := by
  have hroot : (map.root.remove key).2 = some value := (Tree.remove_snd key map.root).trans h
  rw [remove, contains, h, Option.isSome_some, if_pos rfl]
  simp only [hroot, Option.isSome_some, if_true]

@[simp] theorem remove_snd (map : OrderedMap) (key : Bytes) :
    (map.remove key).2 = map.get? key := by
  cases h : map.get? key with
  | none => rw [remove_of_eq_none h]
  | some value => rw [remove_of_eq_some h]

/-- The search before a removal makes no difference to the tree. -/
theorem root_remove (map : OrderedMap) (key : Bytes) :
    (map.remove key).1.root = (map.root.remove key).1 := by
  cases h : map.get? key with
  | none =>
    rw [remove_of_eq_none h]
    exact (Tree.remove_of_eq_none ((Tree.remove_snd key map.root).trans h)).symm
  | some value => rw [remove_of_eq_some h]

/-! ### Reachable maps -/

/-- The maps that insertions and removals make of the empty one. -/
inductive Reachable : OrderedMap → Prop
  | empty : Reachable .empty
  | insert {map : OrderedMap} (entry : Entry) (h : Reachable map) : Reachable (map.insert entry).1
  | remove {map : OrderedMap} (key : Bytes) (h : Reachable map) : Reachable (map.remove key).1

/-- The tree is ordered and balanced, and the size counts its nodes. -/
structure WellFormed (map : OrderedMap) : Prop where
  ordered : map.root.Ordered
  balanced : map.root.Balanced
  size_eq : map.size = map.root.size

theorem wellFormed_empty : empty.WellFormed := ⟨trivial, trivial, rfl⟩

theorem WellFormed.insert {map : OrderedMap} (hw : map.WellFormed) (entry : Entry) :
    (map.insert entry).1.WellFormed := by
  refine ⟨hw.ordered.insert entry, (Tree.grows_insert hw.balanced entry).balanced, ?_⟩
  have hmap := map.size_insert entry
  have htree := Tree.size_insert entry map.root
  have := hw.size_eq
  rw [root_insert]
  rw [get?] at hmap
  omega

/-- The size does not run below zero: a removal that answers a value lowers it by one. -/
theorem WellFormed.size_remove {map : OrderedMap} (hw : map.WellFormed) (key : Bytes) :
    (map.remove key).1.size + (map.get? key).toList.length = map.size := by
  have htree := Tree.size_remove key map.root
  have := hw.size_eq
  cases h : map.get? key with
  | none => rw [remove_of_eq_none h]; rfl
  | some value =>
    rw [remove_of_eq_some h]
    rw [get?] at h
    rw [h] at htree
    simp only [Option.toList_some, List.length_singleton] at htree ⊢
    omega

theorem WellFormed.remove {map : OrderedMap} (hw : map.WellFormed) (key : Bytes) :
    (map.remove key).1.WellFormed := by
  have hroot := map.root_remove key
  refine ⟨?_, ?_, ?_⟩
  · rw [hroot]
    exact hw.ordered.remove key
  · rw [hroot]
    exact (Tree.shrinks_remove hw.balanced key).balanced
  · have hmap := hw.size_remove key
    have htree := Tree.size_remove key map.root
    have := hw.size_eq
    rw [hroot]
    rw [get?] at hmap
    omega

theorem Reachable.wellFormed {map : OrderedMap} (h : map.Reachable) : map.WellFormed := by
  induction h with
  | empty => exact wellFormed_empty
  | insert entry _ ih => exact ih.insert entry
  | remove key _ ih => exact ih.remove key

/-- **Every reachable map is well formed**, and a removal from it never takes the size below zero. -/
theorem wellFormed_of_reachable {map : OrderedMap} (h : map.Reachable) :
    map.WellFormed ∧
      ∀ key value, (map.remove key).2 = some value → (map.remove key).1.size + 1 = map.size := by
  refine ⟨h.wellFormed, fun key value hvalue => ?_⟩
  have hsize := h.wellFormed.size_remove key
  rw [remove_snd] at hvalue
  rwa [hvalue] at hsize

/-- Three insertions with a rotation, and the removal of the root: its successor takes its place. -/
theorem wellFormed_of_reachable_rotated :
    let map := (((empty.insert ⟨[], [1]⟩).1.insert ⟨[7], [2]⟩).1.insert ⟨[7, 0], []⟩).1
    map.Reachable ∧ map.WellFormed ∧ (map.remove [7]).2 = some [2] ∧
      (map.remove [7]).1.size + 1 = map.size :=
  have h := ((Reachable.empty.insert ⟨[], [1]⟩).insert ⟨[7], [2]⟩).insert ⟨[7, 0], []⟩
  ⟨h, (wellFormed_of_reachable h).1, by decide,
    (wellFormed_of_reachable h).2 [7] [2] (by decide)⟩

end OrderedStore.OrderedMap
