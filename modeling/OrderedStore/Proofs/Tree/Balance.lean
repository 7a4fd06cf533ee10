import OrderedStore.Proofs.Tree.Mirror
import OrderedStore.Proofs.Tree.Order

/-!
# Balance

A tree is balanced if at every node the stored height is one more than that of the higher subtree
and the two subtrees differ in height by at most one.

* `Tree.Settles` says what rebalancing makes of two balanced subtrees that differ in height by at
  most two; `Tree.settles_left_high` is the case analysis over the rotations, and
  `Tree.settles_rebalance` the general case.
* `Tree.Grows` and `Tree.Shrinks` bound how the height changes on the way back from a change:
  `Tree.grows_insert`, `Tree.shrinks_popMin` and `Tree.shrinks_remove`.
-/

namespace OrderedStore.Tree

/-- Every stored height is exact, and no two subtrees of a node differ in height by more than one. -/
def Balanced : Tree → Prop
  | leaf => True
  | node _ height left right =>
    height = max left.height right.height + 1 ∧ left.height ≤ right.height + 1 ∧
      right.height ≤ left.height + 1 ∧ left.Balanced ∧ right.Balanced

@[simp] theorem balanced_leaf : leaf.Balanced := trivial

theorem balanced_node (entry : Entry) (h : Nat) (left right : Tree) :
    (node entry h left right).Balanced ↔
      h = max left.height right.height + 1 ∧ left.height ≤ right.height + 1 ∧
        right.height ≤ left.height + 1 ∧ left.Balanced ∧ right.Balanced := Iff.rfl

theorem balanced_branch (entry : Entry) (left right : Tree) :
    (branch entry left right).Balanced ↔
      left.height ≤ right.height + 1 ∧ right.height ≤ left.height + 1 ∧
        left.Balanced ∧ right.Balanced := by
  simp [branch, balanced_node]

theorem balanced_mirror {tree : Tree} : tree.mirror.Balanced ↔ tree.Balanced := by
  induction tree with
  | leaf => exact Iff.rfl
  | node entry h left right ihl ihr =>
    rw [mirror_node, balanced_node, balanced_node, ihl, ihr, height_mirror, height_mirror, Nat.max_comm]
    constructor
    · rintro ⟨hh, hrl, hlr, hr, hl⟩
      exact ⟨hh, hlr, hrl, hl, hr⟩
    · rintro ⟨hh, hlr, hrl, hl, hr⟩
      exact ⟨hh, hrl, hlr, hr, hl⟩

/-! ### Rebalancing -/

theorem rebalance_node (entry : Entry) (h : Nat) (left right : Tree) :
    (node entry h left right).rebalance =
      if right.height + 1 < left.height then
        (branch entry (if left.tilt < 0 then left.rotateLeft else left) right).rotateRight
      else if left.height + 1 < right.height then
        (branch entry left (if 0 < right.tilt then right.rotateRight else right)).rotateLeft
      else branch entry left right := by
  have hleft : (1 < (left.height : Int) - right.height) ↔ right.height + 1 < left.height := by omega
  have hright : ((left.height : Int) - right.height < -1) ↔ left.height + 1 < right.height := by
    omega
  simp only [rebalance, hleft, hright]

/-- A balanced tree is left as it is. -/
theorem Balanced.rebalance_eq {tree : Tree} (hb : tree.Balanced) : tree.rebalance = tree := by
  cases tree with
  | leaf => rfl
  | node entry h left right =>
    obtain ⟨hh, hlr, hrl, -, -⟩ := hb
    rw [rebalance_node, if_neg (by omega), if_neg (by omega), branch, ← hh]

/-- What rebalancing makes of the subtrees `left` and `right`: a balanced tree that is at most one
higher than they are, and exactly one higher if nothing had to be rotated. -/
structure Settles (left right result : Tree) : Prop where
  balanced : result.Balanced
  le : max left.height right.height ≤ result.height
  le_succ : result.height ≤ max left.height right.height + 1
  eq_succ : left.height ≤ right.height + 1 → right.height ≤ left.height + 1 →
    result.height = max left.height right.height + 1

theorem settles_branch {entry : Entry} {left right : Tree} (hl : left.Balanced)
    (hr : right.Balanced) (hlr : left.height ≤ right.height + 1)
    (hrl : right.height ≤ left.height + 1) : Settles left right (branch entry left right) :=
  ⟨(balanced_branch ..).2 ⟨hlr, hrl, hl, hr⟩, by simp, by simp, fun _ _ => by simp⟩

theorem Settles.mirror {left right result : Tree} (hs : Settles left right result) :
    Settles right.mirror left.mirror result.mirror := by
  obtain ⟨hb, hle, hsucc, heq⟩ := hs
  refine ⟨balanced_mirror.2 hb, ?_, ?_, ?_⟩
  all_goals simp only [height_mirror]; omega

/-- The left subtree is too high: one rotation lifts its root or, if that leans to the inner side,
two rotations lift the root of its right subtree.  The result is no higher than the left subtree was,
unless the subtrees of that one were equally high. -/
theorem settles_left_high (entry : Entry) (h : Nat) {left right : Tree} (hl : left.Balanced)
    (hr : right.Balanced) (hlr : left.height = right.height + 2) :
    Settles left right (node entry h left right).rebalance ∧
      (left.tilt ≠ 0 → (node entry h left right).rebalance.height = left.height) := by
  rw [rebalance_node, if_pos (by omega)]
  cases left with
  | leaf => simp at hlr
  | node child hc outer inner =>
    obtain ⟨hh, hoi, hio, ho, hi⟩ := hl
    rw [height_node] at hlr
    by_cases hlean : outer.height < inner.height
    · cases inner with
      | leaf => simp at hlean
      | node middle hm near far =>
        obtain ⟨hhm, hnf, hfn, hn, hf⟩ := hi
        simp only [height_node] at hh hoi hio hlean
        have htilt : (node child hc outer (node middle hm near far)).tilt < 0 := by
          simp only [tilt, height_node]
          omega
        rw [if_pos htilt]
        show Settles _ _ (branch middle (branch child outer near) (branch entry far right)) ∧
          (_ → (branch middle (branch child outer near) (branch entry far right)).height = _)
        refine ⟨⟨?_, ?_, ?_, ?_⟩, fun _ => ?_⟩
        · simp only [balanced_branch, height_branch]
          refine ⟨?_, ?_, ⟨?_, ?_, ho, hn⟩, ?_, ?_, hf, hr⟩ <;> omega
        all_goals simp only [height_node, height_branch]; omega
    · have htilt : ¬ (node child hc outer inner).tilt < 0 := by
        simp only [tilt]
        omega
      rw [if_neg htilt]
      show Settles _ _ (branch child outer (branch entry inner right)) ∧
        (_ → (branch child outer (branch entry inner right)).height = _)
      refine ⟨⟨?_, ?_, ?_, ?_⟩, ?_⟩
      · simp only [balanced_branch, height_branch]
        refine ⟨?_, ?_, ho, ?_, ?_, hi, hr⟩ <;> omega
      all_goals simp only [height_node, height_branch, tilt_node]; omega

/-- The right subtree is too high. -/
theorem settles_right_high (entry : Entry) (h : Nat) {left right : Tree} (hl : left.Balanced)
    (hr : right.Balanced) (hrl : right.height = left.height + 2) :
    Settles left right (node entry h left right).rebalance ∧
      (right.tilt ≠ 0 → (node entry h left right).rebalance.height = right.height) := by
  have hheights : right.mirror.height = left.mirror.height + 2 := by
    rw [height_mirror, height_mirror, hrl]
  obtain ⟨hs, hheight⟩ :=
    settles_left_high entry h (balanced_mirror.2 hr) (balanced_mirror.2 hl) hheights
  rw [← mirror_node, ← mirror_rebalance] at hs hheight
  rw [height_mirror, height_mirror, tilt_mirror] at hheight
  refine ⟨?_, fun hne => hheight (by omega)⟩
  have hsettled := hs.mirror
  rwa [mirror_mirror, mirror_mirror, mirror_mirror] at hsettled

/-- Rebalancing settles any two balanced subtrees that differ in height by at most two. -/
theorem settles_rebalance (entry : Entry) (h : Nat) {left right : Tree} (hl : left.Balanced)
    (hr : right.Balanced) (hlr : left.height ≤ right.height + 2)
    (hrl : right.height ≤ left.height + 2) :
    Settles left right (node entry h left right).rebalance := by
  by_cases hleft : left.height = right.height + 2
  · exact (settles_left_high entry h hl hr hleft).1
  · by_cases hright : right.height = left.height + 2
    · exact (settles_right_high entry h hl hr hright).1
    · rw [rebalance_node, if_neg (by omega), if_neg (by omega)]
      exact settles_branch hl hr (by omega) (by omega)

/-! ### Growing and shrinking -/

/-- `new` is balanced and as high as `old` or higher by one. -/
structure Grows (old new : Tree) : Prop where
  balanced : new.Balanced
  le : old.height ≤ new.height
  le_succ : new.height ≤ old.height + 1

/-- `new` is balanced and as high as `old` or lower by one. -/
structure Shrinks (old new : Tree) : Prop where
  balanced : new.Balanced
  le : new.height ≤ old.height
  le_succ : old.height ≤ new.height + 1

theorem Grows.of_height_eq {old new : Tree} (hb : new.Balanced) (h : new.height = old.height) :
    Grows old new :=
  ⟨hb, Nat.le_of_eq h.symm, Nat.le_succ_of_le (Nat.le_of_eq h)⟩

theorem Balanced.grows_self {tree : Tree} (hb : tree.Balanced) : Grows tree tree :=
  Grows.of_height_eq hb rfl

theorem Balanced.shrinks_self {tree : Tree} (hb : tree.Balanced) : Shrinks tree tree :=
  ⟨hb, Nat.le_refl _, Nat.le_succ _⟩

section Node

variable {entry top : Entry} {h k : Nat} {left right left' right' : Tree}

/-- A rebalanced node grows with its subtrees. -/
theorem Grows.node (hb : (node entry h left right).Balanced) (hl : Grows left left')
    (hr : Grows right right') :
    Grows (node entry h left right) (node top k left' right').rebalance := by
  obtain ⟨hh, hlr, hrl, -, -⟩ := hb
  obtain ⟨hbl, hlle, hlsucc⟩ := hl
  obtain ⟨hbr, hrle, hrsucc⟩ := hr
  have hs := settles_rebalance top k hbl hbr (by omega) (by omega)
  obtain ⟨hbalanced, hle, hsucc, heq⟩ := hs
  exact ⟨hbalanced, by rw [height_node]; omega, by rw [height_node]; omega⟩

/-- A rebalanced node shrinks with its subtrees. -/
theorem Shrinks.node (hb : (node entry h left right).Balanced) (hl : Shrinks left left')
    (hr : Shrinks right right') :
    Shrinks (node entry h left right) (node top k left' right').rebalance := by
  obtain ⟨hh, hlr, hrl, -, -⟩ := hb
  obtain ⟨hbl, hlle, hlsucc⟩ := hl
  obtain ⟨hbr, hrle, hrsucc⟩ := hr
  have hs := settles_rebalance top k hbl hbr (by omega) (by omega)
  obtain ⟨hbalanced, hle, hsucc, heq⟩ := hs
  exact ⟨hbalanced, by rw [height_node]; omega, by rw [height_node]; omega⟩

/-- A node is rebalanced only after an insertion that replaced no value; one that did keeps the
heights. -/
theorem Grows.rebalanceIf {replaced : Option Bytes} (hb : (Tree.node entry h left right).Balanced)
    (hl : Grows left left') (hr : Grows right right')
    (hkeep : ∀ value, replaced = some value →
      left'.height = left.height ∧ right'.height = right.height) :
    Grows (Tree.node entry h left right)
      ((Tree.node entry h left' right').rebalanceIf replaced.isNone) := by
  cases hreplaced : replaced with
  | none =>
    rw [Option.isNone_none, rebalanceIf_true]
    exact Grows.node hb hl hr
  | some value =>
    -- Nothing is rebalanced, so the stored height has to be right already.
    obtain ⟨hheightl, hheightr⟩ := hkeep value hreplaced
    obtain ⟨hh, hlr, hrl, -, -⟩ := hb
    refine Grows.of_height_eq ?_ rfl
    rw [Option.isNone_some, rebalanceIf_false, balanced_node, hheightl, hheightr]
    exact ⟨hh, hlr, hrl, hl.balanced, hr.balanced⟩

/-- A node is rebalanced only after a removal that found its key; one that did not changes
nothing. -/
theorem Shrinks.rebalanceIf {removed : Option Bytes} (hb : (Tree.node entry h left right).Balanced)
    (hl : Shrinks left left') (hr : Shrinks right right')
    (hkeep : removed = none → left' = left ∧ right' = right) :
    Shrinks (Tree.node entry h left right)
      ((Tree.node entry h left' right').rebalanceIf removed.isSome) := by
  cases hremoved : removed with
  | none =>
    obtain ⟨rfl, rfl⟩ := hkeep hremoved
    exact hb.shrinks_self
  | some value =>
    rw [Option.isSome_some, rebalanceIf_true]
    exact Shrinks.node hb hl hr

end Node

/-! ### Insertion -/

/-- Replacing a value keeps the height. -/
theorem height_insert_of_eq_some {new : Entry} {value : Bytes} {tree : Tree}
    (h : (tree.insert new).2 = some value) : (tree.insert new).1.height = tree.height := by
  cases tree with
  | leaf => cases h
  | node entry height left right =>
    rw [insert_node] at h ⊢
    split at h
    · next hlt =>
      rw [if_pos hlt, h]
      rfl
    · next hlt =>
      rw [if_neg hlt]
      split at h
      · next hgt =>
        rw [if_pos hgt, h]
        rfl
      · next hgt =>
        rw [if_neg hgt]
        rfl

/-- Insertion keeps a tree balanced and makes it at most one higher. -/
theorem grows_insert {tree : Tree} (hb : tree.Balanced) (new : Entry) :
    Grows tree (tree.insert new).1 := by
  induction tree with
  | leaf =>
    exact ⟨by simp [insert_leaf, single, balanced_branch], by simp, by simp [insert_leaf, single]⟩
  | node entry h left right ihl ihr =>
    obtain ⟨-, -, -, hl, hr⟩ := id hb
    rw [insert_node]
    split
    · exact Grows.rebalanceIf hb (ihl hl) hr.grows_self fun value hfound =>
        ⟨height_insert_of_eq_some hfound, rfl⟩
    · split
      · exact Grows.rebalanceIf hb hl.grows_self (ihr hr) fun value hfound =>
          ⟨rfl, height_insert_of_eq_some hfound⟩
      · exact Grows.of_height_eq hb rfl

/-! ### Removal -/

/-- Detaching the least entry keeps a tree balanced and makes it at most one lower. -/
theorem shrinks_popMin {tree rest : Tree} {least : Entry} (hb : tree.Balanced)
    (h : tree.popMin = some (least, rest)) : Shrinks tree rest := by
  induction tree generalizing least rest with
  | leaf => simp [popMin] at h
  | node entry height left right ihl _ =>
    obtain ⟨hh, hlr, hrl, hl, hr⟩ := id hb
    rw [popMin_node] at h
    split at h
    · next hnone =>
      cases h
      rw [popMin_eq_none_iff.1 hnone, height_leaf] at hh hlr hrl
      exact ⟨hr, by rw [height_node]; omega, by rw [height_node]; omega⟩
    · next found below hsome =>
      cases h
      exact Shrinks.node hb (ihl hl hsome) hr.shrinks_self

/-- Removing the root of a balanced tree joins its subtrees to a tree that is at most one lower. -/
theorem shrinks_join {entry : Entry} {h : Nat} {left right : Tree}
    (hb : (node entry h left right).Balanced) :
    Shrinks (node entry h left right) (join left right).rebalance := by
  obtain ⟨hh, hlr, hrl, hl, hr⟩ := id hb
  unfold join
  split
  · rw [hr.rebalance_eq]
    rw [height_leaf] at hh hrl
    exact ⟨hr, by rw [height_node]; omega, by rw [height_node]; omega⟩
  · rw [hl.rebalance_eq]
    rw [height_leaf] at hh hlr
    exact ⟨hl, by rw [height_node]; omega, by rw [height_node]; omega⟩
  · next hleft hright =>
    split
    · next hpop => exact absurd (popMin_eq_none_iff.1 hpop) hright
    · next least rest hpop => exact Shrinks.node hb hl.shrinks_self (shrinks_popMin hr hpop)

/-- Without an entry of the key nothing changes. -/
theorem remove_of_eq_none {key : Bytes} {tree : Tree} (h : (tree.remove key).2 = none) :
    (tree.remove key).1 = tree := by
  induction tree with
  | leaf => rfl
  | node entry height left right ihl ihr =>
    rw [remove_node] at h ⊢
    split at h
    · next hlt =>
      rw [if_pos hlt, ihl h, h]
      rfl
    · next hlt =>
      rw [if_neg hlt]
      split at h
      · next hgt =>
        rw [if_pos hgt, ihr h, h]
        rfl
      · cases h

/-- Removal keeps a tree balanced and makes it at most one lower. -/
theorem shrinks_remove {tree : Tree} (hb : tree.Balanced) (key : Bytes) :
    Shrinks tree (tree.remove key).1 := by
  induction tree with
  | leaf => exact hb.shrinks_self
  | node entry h left right ihl ihr =>
    obtain ⟨-, -, -, hl, hr⟩ := id hb
    rw [remove_node]
    split
    · exact Shrinks.rebalanceIf hb (ihl hl) hr.shrinks_self fun hfound =>
        ⟨remove_of_eq_none hfound, rfl⟩
    · split
      · exact Shrinks.rebalanceIf hb hl.shrinks_self (ihr hr) fun hfound =>
          ⟨rfl, remove_of_eq_none hfound⟩
      · exact shrinks_join hb

end OrderedStore.Tree
