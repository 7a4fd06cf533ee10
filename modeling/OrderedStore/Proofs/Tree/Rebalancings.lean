import OrderedStore.Proofs.Tree.Balance
import OrderedStore.Tree.Watched

/-!
# Rebalancings

Every rebalancing on the way of a removal from a balanced tree is asked of two balanced subtrees that differ
in height by at most two.  No rotation lacks the child that it lifts, and no removed root lacks a successor.

* `Tree.Records` says of a run that it goes through, what it answers and what it writes down.
* `Tree.records_rebalanceBy` counts the rotations of one rebalancing, in whatever state the tree is.
* `Tree.Rebalancing.Sound` is what the record of a rebalancing shows if its precondition,
  `Tree.NearlyBalanced`, was met.
* `Tree.records_popMinBy` and `Tree.records_removeNoted` are the records of the changes.
-/

namespace OrderedStore.Tree

/-! ### Runs with a record -/

section Records

variable {α β μ : Type} {P Q R : List μ → Prop} {a : α} {b : β}

/-- Whatever has been written down before, the run does not fail, answers `a` and adds a list with the
property to what is written down. -/
def Records (call : StateT (List μ) Option α) (a : α) (P : List μ → Prop) : Prop :=
  ∀ past, ∃ added, P added ∧ call.run past = some (a, past ++ added)

theorem Records.pure (h : P []) : Records (pure a) a P :=
  fun _ => ⟨[], h, by rw [List.append_nil]; rfl⟩

/-- Two runs, one after the other, add one list behind the other. -/
theorem Records.bind {call : StateT (List μ) Option α} {next : α → StateT (List μ) Option β}
    (hfirst : Records call a P) (hnext : Records (next a) b Q)
    (happend : ∀ first later, P first → Q later → R (first ++ later)) : Records (call >>= next) b R := by
  intro past
  obtain ⟨first, hP, hrun⟩ := hfirst past
  obtain ⟨later, hQ, hrunNext⟩ := hnext (past ++ first)
  refine ⟨first ++ later, happend first later hP hQ, ?_⟩
  rw [StateT.run_bind, hrun, ← List.append_assoc, ← hrunNext]
  rfl

theorem Records.mono {call : StateT (List μ) Option α} (hcall : Records call a P)
    (h : ∀ added, P added → Q added) : Records call a Q := by
  intro past
  obtain ⟨added, hP, hrun⟩ := hcall past
  exact ⟨added, h added hP, hrun⟩

/-- What is done with the answer adds nothing. -/
theorem Records.map {call : StateT (List μ) Option α} (hcall : Records call a P) (f : α → β) :
    Records (call >>= fun a => Pure.pure (f a)) (f a) P :=
  hcall.bind (Records.pure (P := fun added => added = []) rfl) fun first later hP hlater => by
    rwa [hlater, List.append_nil]

end Records

/-! ### Rotations -/

theorem ne_leaf_of_height_pos {tree : Tree} (h : 0 < tree.height) : tree ≠ leaf := by
  rintro rfl
  exact Nat.lt_irrefl 0 h

theorem rotateLeft_ne_leaf {tree : Tree} (h : tree ≠ leaf) : tree.rotateLeft ≠ leaf := by
  unfold rotateLeft
  split
  · exact nofun
  · exact h

theorem rotateRight_ne_leaf {tree : Tree} (h : tree ≠ leaf) : tree.rotateRight ≠ leaf := by
  unfold rotateRight
  split
  · exact nofun
  · exact h

namespace Rotation

theorem lifts_right {entry : Entry} {h : Nat} {left right : Tree} (hl : left ≠ leaf) :
    (Rotation.right (node entry h left right)).lifts = true := by
  cases left with
  | leaf => exact absurd rfl hl
  | node => rfl

theorem lifts_left {entry : Entry} {h : Nat} {left right : Tree} (hr : right ≠ leaf) :
    (Rotation.left (node entry h left right)).lifts = true := by
  cases right with
  | leaf => exact absurd rfl hr
  | node => rfl

/-- A tree that leans to the left has a left child. -/
theorem lifts_right_of_tilt_pos {tree : Tree} (h : 0 < tree.tilt) :
    (Rotation.right tree).lifts = true := by
  cases tree with
  | leaf => exact absurd h (by decide)
  | node entry height left right =>
    rw [tilt_node] at h
    exact lifts_right (ne_leaf_of_height_pos (by omega))

/-- A tree that leans to the right has a right child. -/
theorem lifts_left_of_tilt_neg {tree : Tree} (h : tree.tilt < 0) :
    (Rotation.left tree).lifts = true := by
  cases tree with
  | leaf => exact absurd h (by decide)
  | node entry height left right =>
    rw [tilt_node] at h
    exact lifts_left (ne_leaf_of_height_pos (by omega))

theorem records_noted {rotation : Rotation} (h : rotation.lifts = true) :
    Records rotation.noted rotation.result fun added => added = [rotation] := by
  intro past
  rw [noted, h]
  exact ⟨_, rfl, rfl⟩

end Rotation

/-- A child that leans to the inner side is rotated outwards before the rotation that lifts it. -/
theorem records_lift (inner : Rotation) (lifted : Tree → Rotation) {lean : Prop} [Decidable lean]
    {child : Tree} (hinner : lean → inner.lifts = true) (hresult : inner.result ≠ leaf)
    (hchild : child ≠ leaf) (hlifted : ∀ tree, tree ≠ leaf → (lifted tree).lifts = true) :
    Records
      (do
        let child ← if lean then inner.noted else pure child
        (lifted child).noted)
      (lifted (if lean then inner.result else child)).result
      fun rotations => rotations ≠ [] ∧ rotations.length ≤ 2 := by
  split
  · next h =>
    refine (Rotation.records_noted (hinner h)).bind (Rotation.records_noted (hlifted _ hresult)) ?_
    rintro _ _ rfl rfl
    exact ⟨nofun, Nat.le_refl _⟩
  · rw [pure_bind]
    refine (Rotation.records_noted (hlifted _ hchild)).mono ?_
    rintro _ rfl
    exact ⟨nofun, Nat.le_succ _⟩

/-- Rebalancing rotates at most twice, and not at all if the subtrees differ in height by at most one.  Every
rotation has a child to lift, in whatever state the tree is. -/
theorem records_rebalanceBy (tree : Tree) :
    Records (tree.rebalanceBy Rotation.noted) tree.rebalance fun rotations =>
      rotations.length ≤ 2 ∧ (rotations = [] ↔ -1 ≤ tree.tilt ∧ tree.tilt ≤ 1) := by
  cases tree with
  | leaf => exact Records.pure (by decide)
  | node entry h left right =>
    simp only [rebalanceBy, rebalance, tilt_node]
    split
    · next hleft =>
      have hne : left ≠ leaf := ne_leaf_of_height_pos (by omega)
      refine (records_lift (.left left) (fun left => .right (branch entry left right))
        Rotation.lifts_left_of_tilt_neg (rotateLeft_ne_leaf hne) hne
        fun _ hchild => Rotation.lifts_right hchild).mono ?_
      rintro rotations ⟨hsome, hlength⟩
      exact ⟨hlength, iff_of_false hsome (by omega)⟩
    · next hleft =>
      split
      · next hright =>
        have hne : right ≠ leaf := ne_leaf_of_height_pos (by omega)
        refine (records_lift (.right right) (fun right => .left (branch entry left right))
          Rotation.lifts_right_of_tilt_pos (rotateRight_ne_leaf hne) hne
          fun _ hchild => Rotation.lifts_left hchild).mono ?_
        rintro rotations ⟨hsome, hlength⟩
        exact ⟨hlength, iff_of_false hsome (by omega)⟩
      · next hright => exact Records.pure ⟨Nat.zero_le _, iff_of_true rfl (by omega)⟩

/-! ### Preconditions -/

/-- Both subtrees are balanced, and the tree leans to neither side by more than two. -/
def NearlyBalanced : Tree → Prop
  | leaf => True
  | tree@(node _ _ left right) => left.Balanced ∧ right.Balanced ∧ -2 ≤ tree.tilt ∧ tree.tilt ≤ 2

theorem nearlyBalanced_node {entry : Entry} {h : Nat} {left right : Tree} :
    (node entry h left right).NearlyBalanced ↔ left.Balanced ∧ right.Balanced ∧
      left.height ≤ right.height + 2 ∧ right.height ≤ left.height + 2 := by
  rw [NearlyBalanced, tilt_node]
  refine and_congr_right fun _ => and_congr_right fun _ => ?_
  omega

theorem Balanced.nearlyBalanced {tree : Tree} (hb : tree.Balanced) : tree.NearlyBalanced := by
  cases tree with
  | leaf => trivial
  | node entry h left right =>
    obtain ⟨-, hlr, hrl, hl, hr⟩ := hb
    exact nearlyBalanced_node.2 ⟨hl, hr, by omega, by omega⟩

theorem NearlyBalanced.balanced_rebalance {tree : Tree} (hn : tree.NearlyBalanced) :
    tree.rebalance.Balanced := by
  cases tree with
  | leaf => trivial
  | node entry h left right =>
    obtain ⟨hl, hr, hlr, hrl⟩ := nearlyBalanced_node.1 hn
    exact (settles_rebalance entry h hl hr hlr hrl).balanced

section Node

variable {entry top : Entry} {h k : Nat} {left right left' right' : Tree}

theorem NearlyBalanced.of_grows (hb : (node entry h left right).Balanced) (hl : Grows left left')
    (hr : Grows right right') : (node top k left' right').NearlyBalanced := by
  obtain ⟨-, hlr, hrl, -, -⟩ := hb
  obtain ⟨hbl, hlle, hlsucc⟩ := hl
  obtain ⟨hbr, hrle, hrsucc⟩ := hr
  exact nearlyBalanced_node.2 ⟨hbl, hbr, by omega, by omega⟩

theorem NearlyBalanced.of_shrinks (hb : (node entry h left right).Balanced) (hl : Shrinks left left')
    (hr : Shrinks right right') : (node top k left' right').NearlyBalanced := by
  obtain ⟨-, hlr, hrl, -, -⟩ := hb
  obtain ⟨hbl, hlle, hlsucc⟩ := hl
  obtain ⟨hbr, hrle, hrsucc⟩ := hr
  exact nearlyBalanced_node.2 ⟨hbl, hbr, by omega, by omega⟩

theorem nearlyBalanced_join (hb : (node entry h left right).Balanced) :
    (join left right).NearlyBalanced := by
  obtain ⟨-, -, -, hl, hr⟩ := id hb
  unfold join
  split
  · exact hr.nearlyBalanced
  · exact hl.nearlyBalanced
  · split
    · exact hl.nearlyBalanced
    · next least rest hpop => exact NearlyBalanced.of_shrinks hb hl.shrinks_self (shrinks_popMin hr hpop)

end Node

/-! ### Records of changes -/

/-- A rebalancing whose precondition was met: it was given two balanced subtrees that differ in height by at
most two, and made a balanced tree of them with at most two rotations. -/
structure Rebalancing.Sound (call : Rebalancing) : Prop where
  nearlyBalanced : call.given.NearlyBalanced
  result_eq : call.result = call.given.rebalance
  balanced : call.result.Balanced
  length_le : call.rotations.length ≤ 2
  rotates_iff : call.rotates = false ↔ -1 ≤ call.given.tilt ∧ call.given.tilt ≤ 1

/-- All rebalancings of a record met their preconditions. -/
def AllSound (calls : List Rebalancing) : Prop := ∀ call ∈ calls, call.Sound

theorem allSound_nil : AllSound [] := nofun

theorem AllSound.append (first later : List Rebalancing) (hfirst : AllSound first)
    (hlater : AllSound later) : AllSound (first ++ later) :=
  List.forall_mem_append.2 ⟨hfirst, hlater⟩

/-- A nearly balanced tree is rebalanced with one sound record. -/
theorem records_noted (old : Tree) {given : Tree} (hn : given.NearlyBalanced) :
    Records (noted old given) given.rebalance fun calls =>
      ∃ call : Rebalancing, call.Sound ∧ call.old = old ∧ call.given = given ∧ calls = [call] := by
  intro past
  obtain ⟨rotations, ⟨hlength, hiff⟩, hrun⟩ := records_rebalanceBy given []
  rw [List.nil_append] at hrun
  have hsound : Rebalancing.Sound ⟨old, given, rotations, given.rebalance⟩ :=
    ⟨hn, rfl, hn.balanced_rebalance, hlength, by
      rw [← hiff, Rebalancing.rotates, Bool.not_eq_false', List.isEmpty_iff]⟩
  refine ⟨[_], ⟨_, hsound, rfl, rfl, rfl⟩, ?_⟩
  rw [noted, hrun]
  rfl

theorem records_noted_allSound (old : Tree) {given : Tree} (hn : given.NearlyBalanced) :
    Records (noted old given) given.rebalance AllSound := by
  refine (records_noted old hn).mono ?_
  rintro _ ⟨call, hsound, -, -, rfl⟩
  exact List.forall_mem_singleton.2 hsound

theorem records_rebalanceIfBy (changed : Bool) (old : Tree) {tree : Tree} (hn : tree.NearlyBalanced) :
    Records (rebalanceIfBy noted changed old tree) (rebalanceIf changed tree) AllSound := by
  cases changed with
  | false => exact Records.pure allSound_nil
  | true => exact records_noted_allSound old hn

/-- The least entry of a balanced tree is detached with a sound record. -/
theorem records_popMinBy {tree : Tree} (hb : tree.Balanced) :
    Records (tree.popMinBy noted) tree.popMin AllSound := by
  induction tree with
  | leaf => exact Records.pure allSound_nil
  | node entry h left right ihl _ =>
    obtain ⟨-, -, -, hl, hr⟩ := id hb
    rw [popMinBy, popMin_node]
    refine (ihl hl).bind ?_ AllSound.append
    cases hpop : left.popMin with
    | none => exact Records.pure allSound_nil
    | some found =>
      obtain ⟨least, rest⟩ := found
      have hn : (node entry h rest right).NearlyBalanced :=
        .of_shrinks hb (shrinks_popMin hl hpop) hr.shrinks_self
      exact (records_noted_allSound (node entry h left right) hn).map fun tree => some (least, tree)

/-- Two balanced trees are joined with a sound record, and the first one is never left alone. -/
theorem records_joinBy (left : Tree) {right : Tree} (hr : right.Balanced)
    (bereft : Tree → StateT (List Rebalancing) Option Tree) :
    Records (joinBy noted bereft left right) (join left right) AllSound := by
  cases left with
  | leaf => exact Records.pure allSound_nil
  | node =>
    cases right with
    | leaf => exact Records.pure allSound_nil
    | node entry h near far =>
      simp only [joinBy, join]
      refine (records_popMinBy hr).bind ?_ AllSound.append
      cases hpop : (node entry h near far).popMin with
      | none => exact absurd (popMin_eq_none_iff.1 hpop) Tree.noConfusion -- the second tree is not a leaf
      | some found => exact Records.pure allSound_nil

/-- The entry of a key is removed from a balanced tree with a sound record. -/
theorem records_removeNoted {tree : Tree} (hb : tree.Balanced) (key : Bytes) :
    Records (tree.removeNoted key) (tree.remove key) AllSound := by
  rw [removeNoted]
  induction tree with
  | leaf => exact Records.pure allSound_nil
  | node entry h left right ihl ihr =>
    obtain ⟨-, -, -, hl, hr⟩ := id hb
    rw [removeBy, remove_node]
    split
    · have hn : (node entry h (left.remove key).1 right).NearlyBalanced :=
        .of_shrinks hb (shrinks_remove hl key) hr.shrinks_self
      refine (ihl hl).bind ?_ AllSound.append
      exact (records_rebalanceIfBy _ (node entry h left right) hn).map fun tree => (tree, _)
    · split
      · have hn : (node entry h left (right.remove key).1).NearlyBalanced :=
          .of_shrinks hb hl.shrinks_self (shrinks_remove hr key)
        refine (ihr hr).bind ?_ AllSound.append
        exact (records_rebalanceIfBy _ (node entry h left right) hn).map fun tree => (tree, _)
      · refine (records_joinBy left hr _).bind ?_ AllSound.append
        exact (records_noted_allSound (node entry h left right) (nearlyBalanced_join hb)).map
          fun tree => (tree, _)

end OrderedStore.Tree
