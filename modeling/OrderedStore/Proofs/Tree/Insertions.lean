import OrderedStore.Proofs.Tree.Rebalancings

/-!
# Insertions rotate once

A subtree that has become higher by an insertion is a new leaf or leans to one side.  Rotating above it
therefore takes the whole height back that it has gained, and nothing is rotated further up.

* `Tree.GrowsLeaning` is how a tree grows in an insertion; `Tree.growsLeaning_insert` is the induction.
* `Tree.height_rebalance_of_tilt` says that a node that has to be rotated is as high as before.
* `Tree.RotatesOnce` is what the record of an insertion shows, `Tree.records_insertBy` that it does.
* `Tree.Balanced.rebalancings_sound` describes the records of all changes of a balanced tree.
-/

namespace OrderedStore.Tree

/-! ### Growing to one side -/

/-- `new` has grown out of `old` as insertions let it: if it is higher, there was nothing before or it leans
to one side. -/
structure GrowsLeaning (old new : Tree) : Prop extends Grows old new where
  leans : new.height = old.height + 1 → old = leaf ∨ new.tilt ≠ 0

theorem Balanced.growsLeaning_self {tree : Tree} (hb : tree.Balanced) : GrowsLeaning tree tree :=
  ⟨hb.grows_self, fun h => absurd h (by omega)⟩

section Node

variable {entry top : Entry} {h k : Nat} {left right left' right' : Tree}

/-- A node that has to be rotated after one of its subtrees has grown is as high as before. -/
theorem height_rebalance_of_tilt (hb : (node entry h left right).Balanced) (hl : GrowsLeaning left left')
    (hr : GrowsLeaning right right')
    (htilt : ¬ (-1 ≤ (node top k left' right').tilt ∧ (node top k left' right').tilt ≤ 1)) :
    (node top k left' right').rebalance.height = h := by
  obtain ⟨hh, hlr, hrl, -, -⟩ := hb
  obtain ⟨⟨hbl, hlle, hlsucc⟩, hlleans⟩ := hl
  obtain ⟨⟨hbr, hrle, hrsucc⟩, hrleans⟩ := hr
  rw [tilt_node] at htilt
  by_cases hleft : left'.height = right'.height + 2
  · -- Only the left subtree can have grown, and it was the higher one already.
    have hne : left ≠ leaf := ne_leaf_of_height_pos (by omega)
    have hleans := (hlleans (by omega)).resolve_left hne
    rw [(settles_left_high top k hbl hbr hleft).2 hleans]
    omega
  · have hright : right'.height = left'.height + 2 := by omega
    have hne : right ≠ leaf := ne_leaf_of_height_pos (by omega)
    have hleans := (hrleans (by omega)).resolve_left hne
    rw [(settles_right_high top k hbl hbr hright).2 hleans]
    omega

/-- A rebalanced node grows to one side with one of its subtrees. -/
theorem GrowsLeaning.node (hb : (node entry h left right).Balanced) (hl : GrowsLeaning left left')
    (hr : GrowsLeaning right right') (hone : left'.height = left.height ∨ right'.height = right.height) :
    GrowsLeaning (node entry h left right) (node top k left' right').rebalance := by
  refine ⟨Grows.node hb hl.toGrows hr.toGrows, fun hhigher => .inr ?_⟩
  rw [height_node] at hhigher
  by_cases htilt : -1 ≤ (Tree.node top k left' right').tilt ∧ (Tree.node top k left' right').tilt ≤ 1
  · obtain ⟨hh, hlr, hrl, -, -⟩ := hb
    obtain ⟨⟨-, hlle, hlsucc⟩, -⟩ := hl
    obtain ⟨⟨-, hrle, hrsucc⟩, -⟩ := hr
    rw [tilt_node] at htilt
    rw [rebalance_node, if_neg (by omega), if_neg (by omega)] at hhigher ⊢
    rw [height_branch] at hhigher
    rw [branch, tilt_node]
    omega
  · have hheight := height_rebalance_of_tilt hb hl hr htilt
    omega

/-- A node is rebalanced only after an insertion that replaced no value; one that did keeps the heights. -/
theorem GrowsLeaning.rebalanceIf {replaced : Option Bytes} (hb : (Tree.node entry h left right).Balanced)
    (hl : GrowsLeaning left left') (hr : GrowsLeaning right right')
    (hone : left'.height = left.height ∨ right'.height = right.height)
    (hkeep : ∀ value, replaced = some value →
      left'.height = left.height ∧ right'.height = right.height) :
    GrowsLeaning (Tree.node entry h left right)
      ((Tree.node entry h left' right').rebalanceIf replaced.isNone) := by
  refine ⟨Grows.rebalanceIf hb hl.toGrows hr.toGrows hkeep, ?_⟩
  cases replaced with
  | none =>
    have hnode : GrowsLeaning _ (Tree.node entry h left' right').rebalance :=
      GrowsLeaning.node hb hl hr hone
    exact hnode.leans
  | some value => exact fun hhigher => absurd hhigher.symm (Nat.succ_ne_self h)

end Node

/-- A tree that an insertion makes higher leans to one side, unless it was empty. -/
theorem growsLeaning_insert {tree : Tree} (hb : tree.Balanced) (new : Entry) :
    GrowsLeaning tree (tree.insert new).1 := by
  induction tree with
  | leaf => exact ⟨grows_insert hb new, fun _ => .inl rfl⟩
  | node entry h left right ihl ihr =>
    obtain ⟨-, -, -, hl, hr⟩ := id hb
    rw [insert_node]
    split
    · exact GrowsLeaning.rebalanceIf hb (ihl hl) hr.growsLeaning_self (.inr rfl) fun value hfound =>
        ⟨height_insert_of_eq_some hfound, rfl⟩
    · split
      · exact GrowsLeaning.rebalanceIf hb hl.growsLeaning_self (ihr hr) (.inl rfl) fun value hfound =>
          ⟨rfl, height_insert_of_eq_some hfound⟩
      · exact ⟨Grows.of_height_eq hb rfl, fun hhigher => absurd hhigher.symm (Nat.succ_ne_self h)⟩

/-! ### Records of insertions -/

/-- All rebalancings met their preconditions, and at most one had to rotate.  What it rotated is as high as
what stood in its place before, and then the whole tree has `kept` its height. -/
structure RotatesOnce (kept : Prop) (calls : List Rebalancing) : Prop where
  sound : AllSound calls
  regains : ∀ call ∈ calls, call.rotates = true → call.result.height = call.old.height
  once : calls.countP Rebalancing.rotates = 0 ∨ calls.countP Rebalancing.rotates = 1 ∧ kept

section Calls

variable {kept kept' : Prop} {first : List Rebalancing} {call : Rebalancing}

theorem rotatesOnce_nil : RotatesOnce kept [] := ⟨allSound_nil, nofun, .inl rfl⟩

theorem RotatesOnce.imp (hfirst : RotatesOnce kept first) (h : kept → kept') : RotatesOnce kept' first :=
  ⟨hfirst.sound, hfirst.regains, hfirst.once.imp_right (And.imp_right h)⟩

/-- One more rebalancing rotates only if none has before. -/
theorem RotatesOnce.concat (hfirst : RotatesOnce kept first) (hsound : call.Sound)
    (hrotates : call.rotates = true → call.result.height = call.old.height ∧ kept')
    (hkept : kept → call.rotates = false ∧ kept') : RotatesOnce kept' (first ++ [call]) := by
  refine ⟨hfirst.sound.append _ _ (List.forall_mem_singleton.2 hsound), ?_, ?_⟩
  · exact List.forall_mem_append.2
      ⟨hfirst.regains, List.forall_mem_singleton.2 fun hrotated => (hrotates hrotated).1⟩
  · rw [List.countP_append, List.countP_singleton]
    obtain hnone | ⟨hone, hk⟩ := hfirst.once
    · cases hcall : call.rotates with
      | false => exact .inl (by simp [hnone])
      | true => exact .inr ⟨by simp [hnone], (hrotates hcall).2⟩
    · obtain ⟨hcall, hk'⟩ := hkept hk
      exact .inr ⟨by simp [hone, hcall], hk'⟩

end Calls

/-- On the way back of an insertion a node rotates only if nothing below it has. -/
theorem records_rebalanceIfBy_of_growsLeaning {entry : Entry} {h : Nat} {left right left' right' : Tree}
    (replaced : Option Bytes) (hb : (node entry h left right).Balanced) (hl : GrowsLeaning left left')
    (hr : GrowsLeaning right right') :
    Records (rebalanceIfBy noted replaced.isNone (node entry h left right) (node entry h left' right'))
      (rebalanceIf replaced.isNone (node entry h left' right')) fun later =>
        ∀ first, RotatesOnce (left'.height = left.height ∧ right'.height = right.height) first →
          RotatesOnce ((rebalanceIf replaced.isNone (node entry h left' right')).height = h)
            (first ++ later) := by
  cases replaced with
  | some value =>
    -- Nothing is rebalanced, and the stored height stays.
    refine Records.pure fun first hfirst => ?_
    rw [List.append_nil]
    exact hfirst.imp fun _ => rfl
  | none =>
    have hn : (node entry h left' right').NearlyBalanced := .of_grows hb hl.toGrows hr.toGrows
    refine (records_noted (node entry h left right) hn).mono ?_
    rintro _ ⟨call, hsound, hold, hgiven, rfl⟩ first hfirst
    rw [Option.isNone_none, rebalanceIf_true]
    have hresult := hsound.result_eq
    have hiff := hsound.rotates_iff
    rw [hgiven] at hresult hiff
    refine hfirst.concat hsound (fun hrotated => ?_) fun hkept => ?_
    · -- A rotation here takes back what the subtree has gained.
      rw [hresult, hold, height_node, and_self]
      refine height_rebalance_of_tilt hb hl hr fun htilt => ?_
      rw [hiff.2 htilt] at hrotated
      cases hrotated
    · -- After a rotation further down neither subtree is higher than before.
      obtain ⟨hleft, hright⟩ := hkept
      obtain ⟨hh, hlr, hrl, -, -⟩ := hb
      have hsettled := settles_rebalance entry h hl.balanced hr.balanced (by omega) (by omega)
      refine ⟨hiff.2 ?_, ?_⟩
      · rw [tilt_node]
        omega
      · rw [hsettled.eq_succ (by omega) (by omega)]
        omega

/-- An entry is inserted into a balanced tree with rotations at one node at most. -/
theorem records_insertBy {tree : Tree} (hb : tree.Balanced) (new : Entry) :
    Records (tree.insertBy noted new) (tree.insert new)
      (RotatesOnce ((tree.insert new).1.height = tree.height)) := by
  induction tree with
  | leaf => exact Records.pure rotatesOnce_nil
  | node entry h left right ihl ihr =>
    obtain ⟨-, -, -, hl, hr⟩ := id hb
    rw [insertBy, insert_node]
    split
    · have hnode := records_rebalanceIfBy_of_growsLeaning (left.insert new).2 hb
        (growsLeaning_insert hl new) hr.growsLeaning_self
      refine (ihl hl).bind (hnode.map fun tree => (tree, _)) fun first later hfirst hlater => ?_
      exact hlater first (hfirst.imp fun hheight => ⟨hheight, rfl⟩)
    · split
      · have hnode := records_rebalanceIfBy_of_growsLeaning (right.insert new).2 hb
          hl.growsLeaning_self (growsLeaning_insert hr new)
        refine (ihr hr).bind (hnode.map fun tree => (tree, _)) fun first later hfirst hlater => ?_
        exact hlater first (hfirst.imp fun hheight => ⟨rfl, hheight⟩)
      · exact Records.pure rotatesOnce_nil

/-! ### All changes -/

/-- **Every rebalancing meets its precondition.**  Whatever is inserted into a balanced tree, removed from it or
detached as its least entry, the run with a record goes through, so no rotation lacks a child to lift and no
removed root a successor; it makes what the change without a record makes; and each rebalancing is given two
balanced subtrees that differ in height by at most two, and leaves a balanced tree after two rotations at most.
An insertion makes the tree higher by at most one, and the one node at which it may rotate is as high afterwards
as what stood there before; a removal makes the tree lower by at most one. -/
theorem Balanced.rebalancings_sound {tree : Tree} (hb : tree.Balanced) :
    (∀ new : Entry, ∃ calls : List Rebalancing,
        (tree.insertBy noted new).run [] = some (tree.insert new, calls) ∧ AllSound calls ∧
          (∀ call ∈ calls, call.rotates = true → call.result.height = call.old.height) ∧
          calls.countP Rebalancing.rotates ≤ 1 ∧
          ((tree.insert new).1.height = tree.height ∨ (tree.insert new).1.height = tree.height + 1)) ∧
      (∀ key : Bytes, ∃ calls : List Rebalancing,
        (tree.removeNoted key).run [] = some (tree.remove key, calls) ∧ AllSound calls ∧
          ((tree.remove key).1.height = tree.height ∨ (tree.remove key).1.height + 1 = tree.height)) ∧
      ∃ calls : List Rebalancing,
        (tree.popMinBy noted).run [] = some (tree.popMin, calls) ∧ AllSound calls ∧
          ∀ least rest, tree.popMin = some (least, rest) →
            rest.height = tree.height ∨ rest.height + 1 = tree.height := by
  refine ⟨fun new => ?_, fun key => ?_, ?_⟩
  · obtain ⟨calls, ⟨hsound, hregains, honce⟩, hrun⟩ := records_insertBy hb new []
    obtain ⟨-, hle, hsucc⟩ := grows_insert hb new
    exact ⟨calls, hrun, hsound, hregains, by omega, by omega⟩
  · obtain ⟨calls, hsound, hrun⟩ := records_removeNoted hb key []
    obtain ⟨-, hle, hsucc⟩ := shrinks_remove hb key
    exact ⟨calls, hrun, hsound, by omega⟩
  · obtain ⟨calls, hsound, hrun⟩ := records_popMinBy hb []
    refine ⟨calls, hrun, hsound, fun least rest hpop => ?_⟩
    obtain ⟨-, hle, hsucc⟩ := shrinks_popMin hb hpop
    omega

/-- A run that can be computed tells how often each of its rebalancings has rotated. -/
theorem lengths_of_run {α : Type} {run : Option (α × List Rebalancing)} {answer : α}
    {calls : List Rebalancing} {lengths : List Nat} (h : run = some (answer, calls))
    (hlengths : run.map (·.2.map (·.rotations.length)) = some lengths) :
    calls.map (·.rotations.length) = lengths := by
  rw [h] at hlengths
  exact Option.some.inj hlengths

/-- An insertion rotates twice, at the second of the three nodes on its way back; the root is removed and its
successor takes its place; detaching the least entry rotates at the root. -/
theorem Balanced.rebalancings_sound_crooked :
    let tree := node ⟨[4], []⟩ 3 (single ⟨[2], []⟩) (node ⟨[6], []⟩ 2 leaf (single ⟨[9], []⟩))
    tree.Balanced ∧
      (∃ calls : List Rebalancing,
        (tree.insertBy noted ⟨[7], [1]⟩).run [] = some (tree.insert ⟨[7], [1]⟩, calls) ∧ AllSound calls ∧
          (∀ call ∈ calls, call.rotates = true → call.result.height = call.old.height) ∧
          calls.countP Rebalancing.rotates ≤ 1 ∧ calls.map (·.rotations.length) = [0, 2, 0]) ∧
      (∃ calls : List Rebalancing,
        (tree.removeNoted [4]).run [] = some (tree.remove [4], calls) ∧ AllSound calls ∧
          calls.map (·.rotations.length) = [0] ∧ (tree.remove [4]).1.height + 1 = tree.height) ∧
      ∃ calls : List Rebalancing,
        (tree.popMinBy noted).run [] = some (tree.popMin, calls) ∧ AllSound calls ∧
          calls.map (·.rotations.length) = [1] := by
  intro tree
  have hb : tree.Balanced := by simp [tree, balanced_node, single, balanced_branch]
  obtain ⟨hinsert, hremove, hpop⟩ := Balanced.rebalancings_sound hb
  obtain ⟨inserted, hrunInsert, hsoundInsert, hregains, honce, -⟩ := hinsert ⟨[7], [1]⟩
  obtain ⟨removed, hrunRemove, hsoundRemove, -⟩ := hremove [4]
  obtain ⟨popped, hrunPop, hsoundPop, -⟩ := hpop
  exact ⟨hb, ⟨inserted, hrunInsert, hsoundInsert, hregains, honce, lengths_of_run hrunInsert (by decide)⟩,
    ⟨removed, hrunRemove, hsoundRemove, lengths_of_run hrunRemove (by decide), by decide⟩,
    ⟨popped, hrunPop, hsoundPop, lengths_of_run hrunPop (by decide)⟩⟩

end OrderedStore.Tree
