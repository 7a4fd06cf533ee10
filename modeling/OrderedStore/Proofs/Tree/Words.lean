import Mathlib.Data.UInt
import OrderedStore.Proofs.OrderedMap.WellFormed
import OrderedStore.Tree.Words

/-!
# Heights in machine words

As long as no height comes near the end of its word, a tree in machine words goes through the same
changes as a tree whose heights are numbers: no sum wraps around, and the signed differences are
exact.

* `Tree.HeightsUpTo` bounds the stored heights; every rotation raises the bound by at most two.
* `WordTree.toTree_rebalance` is the one place where words are computed.
* `WordTree.toTree_insert`, `WordTree.toTree_popMin` and `WordTree.toTree_remove` are the changes
  of a balanced tree.
-/

namespace OrderedStore

/-! ### Bounds on the stored heights -/

namespace Tree

/-- No stored height is above the bound. -/
def HeightsUpTo (bound : Nat) : Tree → Prop
  | leaf => True
  | node _ height left right => height ≤ bound ∧ left.HeightsUpTo bound ∧ right.HeightsUpTo bound

variable {tree left right : Tree} {bound : Nat}

theorem HeightsUpTo.mono {greater : Nat} (h : tree.HeightsUpTo bound) (hle : bound ≤ greater) :
    tree.HeightsUpTo greater := by
  induction tree with
  | leaf => trivial
  | node entry height left right ihl ihr =>
    obtain ⟨hheight, hl, hr⟩ := h
    exact ⟨Nat.le_trans hheight hle, ihl hl, ihr hr⟩

theorem HeightsUpTo.height_le (h : tree.HeightsUpTo bound) : tree.height ≤ bound := by
  cases tree with
  | leaf => exact Nat.zero_le _
  | node entry height left right => exact h.1

/-- No stored height of a balanced tree is above that of its root. -/
theorem Balanced.heightsUpTo (hb : tree.Balanced) : tree.HeightsUpTo tree.height := by
  induction tree with
  | leaf => trivial
  | node entry height left right ihl ihr =>
    obtain ⟨hh, -, -, hl, hr⟩ := hb
    rw [height_node]
    exact ⟨Nat.le_refl _, (ihl hl).mono (by omega), (ihr hr).mono (by omega)⟩

theorem HeightsUpTo.branch (entry : Entry) (hl : left.HeightsUpTo bound)
    (hr : right.HeightsUpTo bound) : (branch entry left right).HeightsUpTo (bound + 1) := by
  have hleft := hl.height_le
  have hright := hr.height_le
  exact ⟨by omega, hl.mono (Nat.le_succ _), hr.mono (Nat.le_succ _)⟩

theorem HeightsUpTo.rotateRight (h : tree.HeightsUpTo bound) :
    tree.rotateRight.HeightsUpTo (bound + 2) := by
  unfold Tree.rotateRight
  split
  · obtain ⟨-, ⟨-, houter, hinner⟩, hright⟩ := h
    exact HeightsUpTo.branch _ (houter.mono (Nat.le_succ _)) (hinner.branch _ hright)
  · exact h.mono (by omega)

theorem HeightsUpTo.rotateLeft (h : tree.HeightsUpTo bound) :
    tree.rotateLeft.HeightsUpTo (bound + 2) := by
  unfold Tree.rotateLeft
  split
  · obtain ⟨-, hleft, -, hinner, houter⟩ := h
    exact HeightsUpTo.branch _ (hleft.branch _ hinner) (houter.mono (Nat.le_succ _))
  · exact h.mono (by omega)

theorem heightsUpTo_join (hl : left.Balanced) (hr : right.Balanced) :
    (join left right).HeightsUpTo (max left.height right.height + 1) := by
  have hleft := hl.heightsUpTo.mono (Nat.le_max_left _ right.height)
  have hright := hr.heightsUpTo.mono (Nat.le_max_right left.height _)
  unfold join
  split
  · exact hright.mono (Nat.le_succ _)
  · exact hleft.mono (Nat.le_succ _)
  · split
    · exact hleft.mono (Nat.le_succ _)
    · next least rest hpop =>
      have hshrunk := shrinks_popMin hr hpop
      exact hleft.branch least (hshrunk.balanced.heightsUpTo.mono
        (hshrunk.le.trans (Nat.le_max_right _ _)))

/-- A balanced tree whose height leaves room in a word of 32 bits for what a change computes. -/
structure Roomy (tree : Tree) : Prop where
  balanced : tree.Balanced
  height_lt : tree.height + 6 < 2 ^ 32

theorem Roomy.of_node {entry : Entry} {h : Nat} (hroom : (node entry h left right).Roomy) :
    left.Roomy ∧ right.Roomy ∧ max left.height right.height < h ∧ h + 6 < 2 ^ 32 := by
  obtain ⟨⟨hh, -, -, hl, hr⟩, hlt⟩ := hroom
  rw [height_node] at hlt
  exact ⟨⟨hl, by omega⟩, ⟨hr, by omega⟩, by omega, hlt⟩

end Tree

namespace WordTree

/-! ### Sums and differences -/

theorem toInt_signed (height : UInt32) : (signed height).toInt = height.toNat :=
  Int64.toInt_ofNat_of_lt (Nat.lt_trans height.toNat_lt (by decide))

/-- The difference of two heights is never too great for a signed word. -/
theorem toInt_excess (left right : WordTree) :
    (excess left right).toInt = (left.toTree.height : Int) - right.toTree.height := by
  have hl := left.height.toNat_lt
  have hr := right.height.toNat_lt
  rw [excess, Int64.toInt_sub, toInt_signed, toInt_signed, toNat_height, toNat_height]
  rw [toNat_height] at hl hr
  exact Int.bmod_eq_of_le (by omega) (by omega)

theorem toInt_tilt (tree : WordTree) : tree.tilt.toInt = tree.toTree.tilt := by
  cases tree with
  | leaf => rfl
  | node entry height left right => exact toInt_excess left right

theorem lt_excess_iff (left right : WordTree) :
    1 < excess left right ↔ (1 : Int) < (left.toTree.height : Int) - right.toTree.height := by
  rw [Int64.lt_iff_toInt_lt, toInt_excess]
  rfl

theorem excess_lt_iff (left right : WordTree) :
    excess left right < -1 ↔ (left.toTree.height : Int) - right.toTree.height < -1 := by
  rw [Int64.lt_iff_toInt_lt, toInt_excess]
  rfl

theorem tilt_neg_iff (tree : WordTree) : tree.tilt < 0 ↔ tree.toTree.tilt < 0 := by
  rw [Int64.lt_iff_toInt_lt, toInt_tilt]
  rfl

theorem tilt_pos_iff (tree : WordTree) : 0 < tree.tilt ↔ 0 < tree.toTree.tilt := by
  rw [Int64.lt_iff_toInt_lt, toInt_tilt]
  rfl

variable {tree left right : WordTree} {bound : Nat}

theorem toTree_ofTree {tree : Tree} (h : tree.HeightsUpTo bound) (hbound : bound < 2 ^ 32) :
    (ofTree tree).toTree = tree := by
  induction tree with
  | leaf => rfl
  | node entry height left right ihl ihr =>
    obtain ⟨hle, hl, hr⟩ := h
    rw [ofTree, toTree_node, ihl hl, ihr hr, UInt32.toNat_ofNat_of_lt' (Nat.lt_of_le_of_lt hle hbound)]

/-! ### Rebalancing -/

/-- The height of a node does not wrap around if the heights below leave room for it. -/
theorem toTree_branch (entry : Entry) (hl : left.toTree.HeightsUpTo bound)
    (hr : right.toTree.HeightsUpTo bound) (hbound : bound + 1 < 2 ^ 32) :
    (branch entry left right).toTree = Tree.branch entry left.toTree right.toTree := by
  have hleft := hl.height_le
  have hright := hr.height_le
  rw [branch, toTree_node, Tree.branch, UInt32.toNat_add, UInt32.toNat_max, toNat_height, toNat_height]
  rw [show (1 : UInt32).toNat = 1 from rfl, Nat.mod_eq_of_lt (by omega)]

theorem heightsUpTo_branch (entry : Entry) (hl : left.toTree.HeightsUpTo bound)
    (hr : right.toTree.HeightsUpTo bound) (hbound : bound + 1 < 2 ^ 32) :
    (branch entry left right).toTree.HeightsUpTo (bound + 1) := by
  rw [toTree_branch entry hl hr hbound]
  exact hl.branch entry hr

theorem toTree_rotateRight (h : tree.toTree.HeightsUpTo bound) (hbound : bound + 2 < 2 ^ 32) :
    tree.rotateRight.toTree = tree.toTree.rotateRight := by
  cases tree with
  | leaf => rfl
  | node top height left right =>
    cases left with
    | leaf => rfl
    | node child height outer inner =>
      obtain ⟨-, ⟨-, houter, hinner⟩, hright⟩ := h
      have hbelow := heightsUpTo_branch top hinner hright (by omega)
      show (branch child outer (branch top inner right)).toTree = _
      rw [toTree_branch child (houter.mono (Nat.le_succ _)) hbelow (by omega),
        toTree_branch top hinner hright (by omega)]
      rfl

theorem toTree_rotateLeft (h : tree.toTree.HeightsUpTo bound) (hbound : bound + 2 < 2 ^ 32) :
    tree.rotateLeft.toTree = tree.toTree.rotateLeft := by
  cases tree with
  | leaf => rfl
  | node top height left right =>
    cases right with
    | leaf => rfl
    | node child height inner outer =>
      obtain ⟨-, hleft, -, hinner, houter⟩ := h
      have hbelow := heightsUpTo_branch top hleft hinner (by omega)
      show (branch child (branch top left inner) outer).toTree = _
      rw [toTree_branch child hbelow (houter.mono (Nat.le_succ _)) (by omega),
        toTree_branch top hleft hinner (by omega)]
      rfl

/-- A child is rotated, if at all, before it is lifted. -/
theorem toTree_ite_rotateLeft (lean : Prop) [Decidable lean] (h : tree.toTree.HeightsUpTo bound)
    (hbound : bound + 2 < 2 ^ 32) :
    (if lean then tree.rotateLeft else tree).toTree =
        (if lean then tree.toTree.rotateLeft else tree.toTree) ∧
      (if lean then tree.rotateLeft else tree).toTree.HeightsUpTo (bound + 2) := by
  split
  · rw [toTree_rotateLeft h hbound]
    exact ⟨rfl, h.rotateLeft⟩
  · exact ⟨rfl, h.mono (Nat.le_add_right _ _)⟩

theorem toTree_ite_rotateRight (lean : Prop) [Decidable lean] (h : tree.toTree.HeightsUpTo bound)
    (hbound : bound + 2 < 2 ^ 32) :
    (if lean then tree.rotateRight else tree).toTree =
        (if lean then tree.toTree.rotateRight else tree.toTree) ∧
      (if lean then tree.rotateRight else tree).toTree.HeightsUpTo (bound + 2) := by
  split
  · rw [toTree_rotateRight h hbound]
    exact ⟨rfl, h.rotateRight⟩
  · exact ⟨rfl, h.mono (Nat.le_add_right _ _)⟩

/-- Nothing wraps around while a tree is rebalanced, with one rotation or with two. -/
theorem toTree_rebalance (h : tree.toTree.HeightsUpTo bound) (hbound : bound + 5 < 2 ^ 32) :
    tree.rebalance.toTree = tree.toTree.rebalance := by
  cases tree with
  | leaf => rfl
  | node entry height left right =>
    obtain ⟨-, hl, hr⟩ := h
    have hl' := hl.mono (Nat.le_add_right bound 2)
    have hr' := hr.mono (Nat.le_add_right bound 2)
    simp only [rebalance, toTree_node, Tree.rebalance, lt_excess_iff, excess_lt_iff, tilt_neg_iff,
      tilt_pos_iff]
    split
    · obtain ⟨hchild, hlifted⟩ := toTree_ite_rotateLeft (left.toTree.tilt < 0) hl (by omega)
      rw [toTree_rotateRight (heightsUpTo_branch entry hlifted hr' (by omega)) (by omega),
        toTree_branch entry hlifted hr' (by omega), hchild]
    · split
      · obtain ⟨hchild, hlifted⟩ := toTree_ite_rotateRight (0 < right.toTree.tilt) hr (by omega)
        rw [toTree_rotateLeft (heightsUpTo_branch entry hl' hlifted (by omega)) (by omega),
          toTree_branch entry hl' hlifted (by omega), hchild]
      · exact toTree_branch entry hl hr (by omega)

theorem toTree_rebalanceIf (changed : Bool) (h : tree.toTree.HeightsUpTo bound)
    (hbound : bound + 5 < 2 ^ 32) :
    (rebalanceIf changed tree).toTree = Tree.rebalanceIf changed tree.toTree := by
  cases changed with
  | false => rfl
  | true => exact toTree_rebalance h hbound

/-! ### Changes -/

theorem insert_node (new entry : Entry) (h : UInt32) (left right : WordTree) :
    (node entry h left right).insert new =
      if new.key < entry.key then
        (rebalanceIf (left.insert new).2.isNone (node entry h (left.insert new).1 right),
          (left.insert new).2)
      else if entry.key < new.key then
        (rebalanceIf (right.insert new).2.isNone (node entry h left (right.insert new).1),
          (right.insert new).2)
      else (node ⟨entry.key, new.value⟩ h left right, some entry.value) := rfl

/-- An insertion in words makes the same tree and replaces the same value. -/
theorem toTree_insert (hroom : tree.toTree.Roomy) (new : Entry) :
    Prod.map toTree id (tree.insert new) = tree.toTree.insert new := by
  induction tree with
  | leaf => rfl
  | node entry h left right ihl ihr =>
    obtain ⟨hl, hr, hlt, hh⟩ := hroom.of_node
    have hleft := ihl hl
    have hright := ihr hr
    have hl' := hl.balanced.heightsUpTo.mono (show _ ≤ h.toNat by omega)
    have hr' := hr.balanced.heightsUpTo.mono (show _ ≤ h.toNat by omega)
    rw [insert_node, toTree_node, Tree.insert_node, ← hleft, ← hright]
    split
    · have hgrown := Tree.grows_insert hl.balanced new
      rw [← hleft] at hgrown
      have hbelow := hgrown.balanced.heightsUpTo.mono (hgrown.le_succ.trans (show _ ≤ h.toNat by omega))
      exact Prod.ext (toTree_rebalanceIf _ ⟨Nat.le_refl _, hbelow, hr'⟩ (by omega)) rfl
    · split
      · have hgrown := Tree.grows_insert hr.balanced new
        rw [← hright] at hgrown
        have hbelow :=
          hgrown.balanced.heightsUpTo.mono (hgrown.le_succ.trans (show _ ≤ h.toNat by omega))
        exact Prod.ext (toTree_rebalanceIf _ ⟨Nat.le_refl _, hl', hbelow⟩ (by omega)) rfl
      · rfl

theorem popMin_node (entry : Entry) (h : UInt32) (left right : WordTree) :
    (node entry h left right).popMin =
      match left.popMin with
      | none => some (entry, right)
      | some (least, rest) => some (least, (node entry h rest right).rebalance) := rfl

theorem toTree_popMin (hroom : tree.toTree.Roomy) :
    tree.popMin.map (Prod.map id toTree) = tree.toTree.popMin := by
  induction tree with
  | leaf => rfl
  | node entry h left right ihl _ =>
    obtain ⟨hl, hr, hlt, hh⟩ := hroom.of_node
    have hleft := ihl hl
    have hr' := hr.balanced.heightsUpTo.mono (show _ ≤ h.toNat by omega)
    rw [popMin_node, toTree_node, Tree.popMin_node, ← hleft]
    cases hpop : left.popMin with
    | none => rfl
    | some found =>
      obtain ⟨least, rest⟩ := found
      rw [hpop] at hleft
      have hshrunk := Tree.shrinks_popMin hl.balanced hleft.symm
      have hbelow := hshrunk.balanced.heightsUpTo.mono (hshrunk.le.trans (show _ ≤ h.toNat by omega))
      exact congrArg (fun rest => some (least, rest))
        (@toTree_rebalance (node entry h rest right) _ ⟨Nat.le_refl _, hbelow, hr'⟩ (by omega))

theorem toTree_join (hl : left.toTree.Roomy) (hr : right.toTree.Roomy) :
    (join left right).toTree = Tree.join left.toTree right.toTree := by
  cases left with
  | leaf => rfl
  | node entry h outer inner =>
    cases right with
    | leaf => rfl
    | node next k near far =>
      have hpop := toTree_popMin hr
      have hleft := hl.balanced.heightsUpTo.mono (Nat.le_max_left _ (node next k near far).toTree.height)
      simp only [join, Tree.join, toTree_node]
      simp only [toTree_node] at hpop
      rw [← hpop]
      cases hfound : (node next k near far).popMin with
      | none => rfl
      | some found =>
        obtain ⟨least, rest⟩ := found
        rw [hfound] at hpop
        have hshrunk := Tree.shrinks_popMin hr.balanced hpop.symm
        have hrest := hshrunk.balanced.heightsUpTo.mono
          (hshrunk.le.trans (Nat.le_max_right (node entry h outer inner).toTree.height _))
        refine toTree_branch least hleft hrest ?_
        have := hl.height_lt
        have := hr.height_lt
        omega

theorem remove_node (key : Bytes) (entry : Entry) (h : UInt32) (left right : WordTree) :
    (node entry h left right).remove key =
      if key < entry.key then
        (rebalanceIf (left.remove key).2.isSome (node entry h (left.remove key).1 right),
          (left.remove key).2)
      else if entry.key < key then
        (rebalanceIf (right.remove key).2.isSome (node entry h left (right.remove key).1),
          (right.remove key).2)
      else ((join left right).rebalance, some entry.value) := rfl

/-- A removal in words makes the same tree and answers the same value. -/
theorem toTree_remove (hroom : tree.toTree.Roomy) (key : Bytes) :
    Prod.map toTree id (tree.remove key) = tree.toTree.remove key := by
  induction tree with
  | leaf => rfl
  | node entry h left right ihl ihr =>
    obtain ⟨hl, hr, hlt, hh⟩ := hroom.of_node
    have hleft := ihl hl
    have hright := ihr hr
    have hl' := hl.balanced.heightsUpTo.mono (show _ ≤ h.toNat by omega)
    have hr' := hr.balanced.heightsUpTo.mono (show _ ≤ h.toNat by omega)
    rw [remove_node, toTree_node, Tree.remove_node, ← hleft, ← hright]
    split
    · have hshrunk := Tree.shrinks_remove hl.balanced key
      rw [← hleft] at hshrunk
      have hbelow := hshrunk.balanced.heightsUpTo.mono (hshrunk.le.trans (show _ ≤ h.toNat by omega))
      exact Prod.ext (toTree_rebalanceIf _ ⟨Nat.le_refl _, hbelow, hr'⟩ (by omega)) rfl
    · split
      · have hshrunk := Tree.shrinks_remove hr.balanced key
        rw [← hright] at hshrunk
        have hbelow :=
          hshrunk.balanced.heightsUpTo.mono (hshrunk.le.trans (show _ ≤ h.toNat by omega))
        exact Prod.ext (toTree_rebalanceIf _ ⟨Nat.le_refl _, hl', hbelow⟩ (by omega)) rfl
      · have hjoined := Tree.heightsUpTo_join hl.balanced hr.balanced
        rw [← toTree_join hl hr] at hjoined ⊢
        exact Prod.ext (toTree_rebalance hjoined (by omega)) rfl

end WordTree

end OrderedStore
