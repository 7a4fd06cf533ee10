import Mathlib.Data.List.Induction
import Mathlib.Data.List.Sort
import OrderedStore.Engine.Sorted

/-!
# Sorted contents as finite maps

Contents are determined by the values of their keys.  A write changes the value of its key only, and
erasing keys takes back whatever was written to them.

* `Contents.eq_of_get?_eq` compares contents by their values.
* `Contents.get?_foldl_applyTo` says that of many writes to a key the last one counts,
  `Contents.get?_foldl_applyTo_of_notMem` and `Contents.get?_without` follow the other keys.
* `Contents.without_foldl_applyTo` says what is left when the keys of writes are erased, and
  `Contents.without_eq_self_iff` when that is what was there before.
-/

namespace OrderedStore

namespace Operation

/-- What a read finds after the write. -/
def result : Operation → Option Bytes
  | set _ value => some value
  | delete _ => none

/-- The last of the writes to a key. -/
def lastFor? (key : Bytes) (ops : List Operation) : Option Operation :=
  ops.reverse.find? fun op => op.key = key

theorem lastFor?_concat (key : Bytes) (ops : List Operation) (op : Operation) :
    lastFor? key (ops ++ [op]) = if op.key = key then some op else lastFor? key ops := by
  rw [lastFor?, List.reverse_concat, List.find?_cons]
  by_cases hkey : op.key = key
  · rw [if_pos hkey, decide_eq_true hkey]
  · rw [if_neg hkey, decide_eq_false hkey]
    rfl

theorem lastFor?_eq_none_iff {key : Bytes} {ops : List Operation} :
    lastFor? key ops = none ↔ key ∉ ops.map Operation.key := by
  simp [lastFor?]

end Operation

namespace Contents

/-- Contents in which every key has the same value are the same. -/
theorem eq_of_get?_eq {a b : Contents} (h : ∀ key, a.get? key = b.get? key) : a = b := by
  have : Std.Antisymm fun a b : Entry => a.key < b.key := ⟨fun _ _ hab hba =>
    (List.lt_irrefl _ (List.lt_trans hab hba)).elim⟩
  have : Std.Irrefl fun a b : Entry => a.key < b.key := ⟨fun _ => List.lt_irrefl _⟩
  refine ext (List.Pairwise.eq_of_mem_iff a.sorted b.sorted fun entry => ?_)
  rw [mem_entries_iff, mem_entries_iff, h]

/-! ### Writes -/

theorem get?_applyTo (contents : Contents) (op : Operation) (key : Bytes) :
    (contents.applyTo op).get? key = if key = op.key then op.result else contents.get? key := by
  cases op with
  | set _ value => exact get?_insert _ _ _
  | delete _ => exact get?_erase _ _ _

theorem get?_applyTo_of_ne (contents : Contents) {op : Operation} {key : Bytes} (h : key ≠ op.key) :
    (contents.applyTo op).get? key = contents.get? key := by
  rw [get?_applyTo, if_neg h]

/-- Of the writes to a key the last one counts, and a key without a write keeps its value. -/
theorem get?_foldl_applyTo (contents : Contents) (ops : List Operation) (key : Bytes) :
    (ops.foldl applyTo contents).get? key =
      match Operation.lastFor? key ops with
      | some op => op.result
      | none => contents.get? key := by
  -- The last operation is the outermost one.
  induction ops using List.reverseRecOn with
  | nil => rfl
  | append_singleton ops op ih =>
    rw [List.foldl_concat, get?_applyTo, Operation.lastFor?_concat]
    by_cases hkey : op.key = key
    · rw [if_pos hkey.symm, if_pos hkey]
    · rw [if_neg (Ne.symm hkey), if_neg hkey, ih]

/-- Writes leave the keys alone that they do not name. -/
theorem get?_foldl_applyTo_of_notMem (contents : Contents) {ops : List Operation} {key : Bytes}
    (h : key ∉ ops.map Operation.key) :
    (ops.foldl applyTo contents).get? key = contents.get? key := by
  rw [get?_foldl_applyTo, Operation.lastFor?_eq_none_iff.2 h]

/-! ### Erased keys -/

/-- The contents without the keys. -/
def without (contents : Contents) (keys : List Bytes) : Contents := keys.foldl erase contents

theorem get?_without (contents : Contents) (keys : List Bytes) (key : Bytes) :
    (contents.without keys).get? key = if key ∈ keys then none else contents.get? key := by
  induction keys generalizing contents with
  | nil => simp [without]
  | cons erased keys ih =>
    show ((contents.erase erased).without keys).get? key = _
    rw [ih, get?_erase]
    by_cases hkey : key = erased
    · simp [hkey]
    · simp [hkey]

/-- Erasing the keys of writes leaves what there was of all other keys. -/
theorem without_foldl_applyTo (contents : Contents) (ops : List Operation) :
    (ops.foldl applyTo contents).without (ops.map Operation.key).reverse =
      contents.without (ops.map Operation.key) := by
  refine eq_of_get?_eq fun key => ?_
  rw [get?_without, get?_without]
  by_cases hkey : key ∈ ops.map Operation.key
  · rw [if_pos (List.mem_reverse.2 hkey), if_pos hkey]
  · rw [if_neg (mt List.mem_reverse.1 hkey), if_neg hkey, get?_foldl_applyTo_of_notMem contents hkey]

/-- Erasing keys changes nothing just when none of them is there. -/
theorem without_eq_self_iff {contents : Contents} {keys : List Bytes} :
    contents.without keys = contents ↔ ∀ key ∈ keys, contents.get? key = none := by
  constructor
  · intro h key hkey
    rw [← h, get?_without, if_pos hkey]
  · intro h
    refine eq_of_get?_eq fun key => ?_
    rw [get?_without]
    by_cases hkey : key ∈ keys
    · rw [if_pos hkey, h key hkey]
    · rw [if_neg hkey]

end Contents

end OrderedStore
