import OrderedStore.Contents
import OrderedStore.Tree.Update

/-!
# Search order

A tree is ordered if every key of a left subtree is below the key of the node above it, and every
key of a right subtree is above it.  The entries of an ordered tree are listed with strictly
increasing keys, and the operations of a tree are those of the list.

* `Tree.ordered_iff_pairwise` reads the order off the list of entries.
* `Tree.get?_eq_find?` finds a key in the list.
* `Tree.toList_insert` and `Tree.toList_remove` change the list at one key.
* `Tree.insert_snd` and `Tree.remove_snd` answer what was stored before.
* `Tree.size_insert` and `Tree.size_remove` count the entries.
-/

namespace OrderedStore.Tree

/-- The keys of the left subtree of every node are below its key, those of the right one above. -/
def Ordered : Tree → Prop
  | leaf => True
  | node entry _ left right =>
    (∀ e ∈ left.toList, e.key < entry.key) ∧ (∀ e ∈ right.toList, entry.key < e.key) ∧
      left.Ordered ∧ right.Ordered

@[simp] theorem ordered_leaf : leaf.Ordered := trivial

theorem ordered_node (entry : Entry) (h : Nat) (left right : Tree) :
    (node entry h left right).Ordered ↔
      (∀ e ∈ left.toList, e.key < entry.key) ∧ (∀ e ∈ right.toList, entry.key < e.key) ∧
        left.Ordered ∧ right.Ordered := Iff.rfl

/-- A tree is ordered exactly if its entries are listed with strictly increasing keys. -/
theorem ordered_iff_pairwise (tree : Tree) :
    tree.Ordered ↔ tree.toList.Pairwise fun a b => a.key < b.key := by
  induction tree with
  | leaf => simp
  | node entry h left right ihl ihr =>
    rw [ordered_node, ihl, ihr, toList_node, List.pairwise_append, List.pairwise_cons]
    constructor
    · rintro ⟨hbelow, habove, hleft, hright⟩
      refine ⟨hleft, ⟨habove, hright⟩, fun a ha b hb => ?_⟩
      rcases List.mem_cons.1 hb with rfl | hb
      · exact hbelow a ha
      · exact List.lt_trans (hbelow a ha) (habove b hb)
    · rintro ⟨hleft, ⟨habove, hright⟩, hcross⟩
      exact ⟨fun e he => hcross e he entry List.mem_cons_self, habove, hleft, hright⟩

/-! ### Lists of entries on one side of a key -/

theorem filter_of_forall_lt {entries : List Entry} {key : Bytes}
    (h : ∀ e ∈ entries, e.key < key) :
    entries.filter (fun e => decide (e.key < key)) = entries ∧
      entries.filter (fun e => decide (key < e.key)) = [] := by
  constructor
  · exact List.filter_eq_self.2 fun e he => by simpa using h e he
  · exact List.filter_eq_nil_iff.2 fun e he => by simpa using List.lt_asymm (h e he)

theorem filter_of_forall_gt {entries : List Entry} {key : Bytes}
    (h : ∀ e ∈ entries, key < e.key) :
    entries.filter (fun e => decide (e.key < key)) = [] ∧
      entries.filter (fun e => decide (key < e.key)) = entries := by
  constructor
  · exact List.filter_eq_nil_iff.2 fun e he => by simpa using List.lt_asymm (h e he)
  · exact List.filter_eq_self.2 fun e he => by simpa using h e he

theorem filter_of_forall_ne {entries : List Entry} {key : Bytes}
    (h : ∀ e ∈ entries, e.key ≠ key) : entries.filter (fun e => e.key != key) = entries :=
  List.filter_eq_self.2 fun e he => by simpa using h e he

theorem find?_of_forall_ne {entries : List Entry} {key : Bytes}
    (h : ∀ e ∈ entries, e.key ≠ key) : entries.find? (fun e => e.key == key) = none :=
  List.find?_eq_none.2 fun e he => by simpa using h e he

/-- A key that is not above a bound differs from all keys above it. -/
theorem forall_ne_of_le {entries : List Entry} {key bound : Bytes} (hle : key ≤ bound)
    (h : ∀ e ∈ entries, bound < e.key) : ∀ e ∈ entries, e.key ≠ key :=
  fun e he => (Std.ne_of_lt (Std.lt_of_le_of_lt hle (h e he))).symm

/-- A key that is not below a bound differs from all keys below it. -/
theorem forall_ne_of_ge {entries : List Entry} {key bound : Bytes} (hle : bound ≤ key)
    (h : ∀ e ∈ entries, e.key < bound) : ∀ e ∈ entries, e.key ≠ key :=
  fun e he => Std.ne_of_lt (Std.lt_of_lt_of_le (h e he) hle)

/-! ### Search -/

theorem get?_node (key : Bytes) (entry : Entry) (h : Nat) (left right : Tree) :
    (node entry h left right).get? key =
      if key < entry.key then left.get? key
      else if entry.key < key then right.get? key
      else some entry.value := rfl

/-- Searching an ordered tree finds the entry that its list has for the key. -/
theorem get?_eq_find? {tree : Tree} (ho : tree.Ordered) (key : Bytes) :
    tree.get? key = (tree.toList.find? fun e => e.key == key).map Entry.value := by
  induction tree with
  | leaf => rfl
  | node entry h left right ihl ihr =>
    obtain ⟨hbelow, habove, hleft, hright⟩ := ho
    rw [get?_node, toList_node, List.find?_append, List.find?_cons]
    split
    · next hlt =>
      have hentry : (entry.key == key) = false := by simpa using (Std.ne_of_lt hlt).symm
      rw [ihl hleft, hentry, find?_of_forall_ne (forall_ne_of_le (List.le_of_lt hlt) habove),
        Option.or_none]
    · next hlt =>
      rw [find?_of_forall_ne (forall_ne_of_ge hlt hbelow), Option.none_or]
      split
      · next hgt =>
        have hentry : (entry.key == key) = false := by simpa using Std.ne_of_lt hgt
        rw [ihr hright, hentry]
      · next hgt =>
        have hentry : (entry.key == key) = true := by simpa using List.le_antisymm hlt hgt
        rw [hentry]
        rfl

/-! ### Insertion -/

theorem insert_leaf (new : Entry) : leaf.insert new = (single new, none) := rfl

theorem insert_node (new entry : Entry) (h : Nat) (left right : Tree) :
    (node entry h left right).insert new =
      if new.key < entry.key then
        (rebalanceIf (left.insert new).2.isNone (node entry h (left.insert new).1 right),
          (left.insert new).2)
      else if entry.key < new.key then
        (rebalanceIf (right.insert new).2.isNone (node entry h left (right.insert new).1),
          (right.insert new).2)
      else (node ⟨entry.key, new.value⟩ h left right, some entry.value) := rfl

/-- An insertion answers the value that was stored for the key before it. -/
@[simp] theorem insert_snd (new : Entry) (tree : Tree) :
    (tree.insert new).2 = tree.get? new.key := by
  induction tree with
  | leaf => rfl
  | node entry h left right ihl ihr =>
    rw [insert_node, get?_node, ← ihl, ← ihr]
    split
    · rfl
    · split <;> rfl

/-- An insertion puts the entry between the entries with smaller and those with greater keys. -/
theorem toList_insert {tree : Tree} (ho : tree.Ordered) (new : Entry) :
    (tree.insert new).1.toList =
      tree.toList.filter (fun e => decide (e.key < new.key)) ++
        new :: tree.toList.filter fun e => decide (new.key < e.key) := by
  induction tree with
  | leaf => rfl
  | node entry h left right ihl ihr =>
    obtain ⟨hbelow, habove, hleft, hright⟩ := ho
    rw [insert_node, toList_node]
    split
    · next hlt =>
      have hrest : ∀ e ∈ entry :: right.toList, new.key < e.key :=
        List.forall_mem_cons.2 ⟨hlt, fun e he => List.lt_trans hlt (habove e he)⟩
      obtain ⟨hlow, hhigh⟩ := filter_of_forall_gt hrest
      rw [toList_rebalanceIf, toList_node, ihl hleft, List.filter_append, List.filter_append, hlow,
        hhigh, List.append_nil, List.append_assoc, List.cons_append]
    · next hlt =>
      split
      · next hgt =>
        have hfirst : ∀ e ∈ left.toList ++ [entry], e.key < new.key :=
          List.forall_mem_append.2
            ⟨fun e he => List.lt_trans (hbelow e he) hgt, List.forall_mem_singleton.2 hgt⟩
        obtain ⟨hlow, hhigh⟩ := filter_of_forall_lt hfirst
        rw [toList_rebalanceIf, toList_node, ihr hright,
          show left.toList ++ entry :: right.toList = left.toList ++ [entry] ++ right.toList by simp,
          List.filter_append (left.toList ++ [entry]), List.filter_append (left.toList ++ [entry]),
          hlow, hhigh]
        simp
      · next hgt =>
        have heq : entry.key = new.key := List.le_antisymm hlt hgt
        obtain ⟨hleftLow, hleftHigh⟩ := filter_of_forall_lt (heq ▸ hbelow)
        obtain ⟨hrightLow, hrightHigh⟩ := filter_of_forall_gt (heq ▸ habove)
        rw [List.filter_append, List.filter_append, hleftLow, hleftHigh,
          List.filter_cons_of_neg (by simpa using hgt),
          List.filter_cons_of_neg (by simpa using hlt), hrightLow, hrightHigh, heq]
        simp

theorem Ordered.insert {tree : Tree} (ho : tree.Ordered) (new : Entry) :
    (tree.insert new).1.Ordered := by
  rw [ordered_iff_pairwise, toList_insert ho]
  exact Contents.pairwise_insert new ((ordered_iff_pairwise tree).1 ho)

/-! ### Removal -/

theorem popMin_node (entry : Entry) (h : Nat) (left right : Tree) :
    (node entry h left right).popMin =
      match left.popMin with
      | none => some (entry, right)
      | some (least, rest) => some (least, (node entry h rest right).rebalance) := rfl

theorem popMin_eq_none_iff {tree : Tree} : tree.popMin = none ↔ tree = leaf := by
  cases tree with
  | leaf => simp [popMin]
  | node entry h left right =>
    rw [popMin_node]
    split <;> simp

@[simp] theorem toList_join (left right : Tree) :
    (join left right).toList = left.toList ++ right.toList := by
  unfold join
  split
  · simp
  · simp
  · next hleft hright =>
    split
    · next hpop => exact absurd (popMin_eq_none_iff.1 hpop) hright
    · next least rest hpop => rw [toList_branch, toList_popMin hpop]

theorem remove_node (key : Bytes) (entry : Entry) (h : Nat) (left right : Tree) :
    (node entry h left right).remove key =
      if key < entry.key then
        (rebalanceIf (left.remove key).2.isSome (node entry h (left.remove key).1 right),
          (left.remove key).2)
      else if entry.key < key then
        (rebalanceIf (right.remove key).2.isSome (node entry h left (right.remove key).1),
          (right.remove key).2)
      else ((join left right).rebalance, some entry.value) := rfl

/-- A removal answers the value that was stored for the key before it. -/
@[simp] theorem remove_snd (key : Bytes) (tree : Tree) :
    (tree.remove key).2 = tree.get? key := by
  induction tree with
  | leaf => rfl
  | node entry h left right ihl ihr =>
    rw [remove_node, get?_node, ← ihl, ← ihr]
    split
    · rfl
    · split <;> rfl

/-- A removal keeps all entries with other keys. -/
theorem toList_remove {tree : Tree} (ho : tree.Ordered) (key : Bytes) :
    (tree.remove key).1.toList = tree.toList.filter fun e => e.key != key := by
  induction tree with
  | leaf => rfl
  | node entry h left right ihl ihr =>
    obtain ⟨hbelow, habove, hleft, hright⟩ := ho
    rw [remove_node, toList_node, List.filter_append]
    split
    · next hlt =>
      have hrest : ∀ e ∈ entry :: right.toList, e.key ≠ key :=
        List.forall_mem_cons.2
          ⟨(Std.ne_of_lt hlt).symm, forall_ne_of_le (List.le_of_lt hlt) habove⟩
      rw [toList_rebalanceIf, toList_node, ihl hleft, filter_of_forall_ne hrest]
    · next hlt =>
      rw [filter_of_forall_ne (forall_ne_of_ge hlt hbelow)]
      split
      · next hgt =>
        rw [toList_rebalanceIf, toList_node, ihr hright,
          List.filter_cons_of_pos (by simpa using Std.ne_of_lt hgt)]
      · next hgt =>
        have heq : entry.key = key := List.le_antisymm hlt hgt
        rw [toList_rebalance, toList_join, List.filter_cons_of_neg (by simpa using heq),
          filter_of_forall_ne (forall_ne_of_le hgt habove)]

theorem Ordered.remove {tree : Tree} (ho : tree.Ordered) (key : Bytes) :
    (tree.remove key).1.Ordered := by
  rw [ordered_iff_pairwise, toList_remove ho]
  exact ((ordered_iff_pairwise tree).1 ho).filter _

/-! ### Sizes -/

theorem size_eq_of_toList_eq {a b : Tree} (h : a.toList = b.toList) : a.size = b.size := by
  rw [← length_toList, ← length_toList, h]

theorem size_node (entry : Entry) (h : Nat) (left right : Tree) :
    (node entry h left right).size = left.size + right.size + 1 := rfl

@[simp] theorem size_rebalanceIf (changed : Bool) (tree : Tree) :
    (rebalanceIf changed tree).size = tree.size :=
  size_eq_of_toList_eq (toList_rebalanceIf changed tree)

/-- An insertion adds one entry and drops the one that it replaces. -/
theorem size_insert (new : Entry) (tree : Tree) :
    (tree.insert new).1.size + (tree.get? new.key).toList.length = tree.size + 1 := by
  induction tree with
  | leaf => rfl
  | node entry h left right ihl ihr =>
    rw [insert_node, get?_node]
    split
    · rw [size_rebalanceIf, size_node, size_node]
      omega
    · split
      · rw [size_rebalanceIf, size_node, size_node]
        omega
      · rfl

/-- A removal drops the entry whose value it answers. -/
theorem size_remove (key : Bytes) (tree : Tree) :
    (tree.remove key).1.size + (tree.get? key).toList.length = tree.size := by
  induction tree with
  | leaf => rfl
  | node entry h left right ihl ihr =>
    rw [remove_node, get?_node]
    split
    · rw [size_rebalanceIf, size_node, size_node]
      omega
    · split
      · rw [size_rebalanceIf, size_node, size_node]
        omega
      · have hjoin : (join left right).rebalance.size = left.size + right.size := by
          rw [← length_toList, toList_rebalance, toList_join, List.length_append, length_toList,
            length_toList]
        rw [hjoin, size_node]
        rfl

end OrderedStore.Tree
