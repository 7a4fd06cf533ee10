import OrderedStore.Memory
import OrderedStore.Proofs.OrderedMap.Reference

/-!
# Ranges in memory

The walk that gathers a range descends over a closed range of keys, skips the upper bound and stops
below the lower one.  What it gathers is the half-open range.

* `Memory.seen_visitAll_gather` says what is gathered along a list.
* `Memory.filter_isGathered_onWay` compares what is gathered on the way with the range.
* `Memory.range_eq` compares the range of a map with that of its contents.
-/

namespace OrderedStore.Memory

/-! ### Gathering along a list -/

/-- An entry is gathered: it is not skipped, and the walk does not stop at it. -/
def isGathered (lowest skip : Option Bytes) (entry : Entry) : Bool :=
  decide (skip ≠ some entry.key) && !isBelow lowest entry.key

variable {lowest skip : Option Bytes} {entry : Entry} (seen : List Entry)

theorem run_gather_of_skip (h : skip = some entry.key) :
    (gather lowest entry).run ⟨skip, seen⟩ = (true, ⟨none, seen⟩) := by
  subst h
  show (if _ then _ else _ : StateM Gathering Bool).run _ = _
  rw [if_pos rfl]
  rfl

theorem run_gather_of_isBelow (h : skip ≠ some entry.key)
    (hbelow : isBelow lowest entry.key = true) :
    (gather lowest entry).run ⟨skip, seen⟩ = (false, ⟨skip, seen⟩) := by
  show (if _ then _ else _ : StateM Gathering Bool).run _ = _
  rw [if_neg h, if_pos hbelow]
  rfl

theorem run_gather_of_not_isBelow (h : skip ≠ some entry.key)
    (hbelow : ¬ isBelow lowest entry.key = true) :
    (gather lowest entry).run ⟨skip, seen⟩ = (true, ⟨skip, entry :: seen⟩) := by
  show (if _ then _ else _ : StateM Gathering Bool).run _ = _
  rw [if_neg h, if_neg hbelow]
  rfl

/-- Along a list of different keys, and behind which nothing is left to be gathered once the walk
has stopped, the entries that are gathered are seen in order. -/
theorem seen_visitAll_gather {entries : List Entry}
    (h : entries.Pairwise fun a b =>
      a.key ≠ b.key ∧ (isBelow lowest a.key = true → isBelow lowest b.key = true))
    (seen : List Entry) :
    ((Tree.visitAll (gather lowest) entries).run ⟨skip, seen⟩).2.seen.reverse =
      seen.reverse ++ entries.filter (isGathered lowest skip) := by
  induction entries generalizing skip seen with
  | nil => exact (List.append_nil _).symm
  | cons entry entries ih =>
    obtain ⟨hfirst, hrest⟩ := List.pairwise_cons.1 h
    rw [Tree.run_visitAll_cons]
    by_cases hskip : skip = some entry.key
    · -- Keys are different, so nothing behind this entry is skipped.
      have hnext :
          entries.filter (isGathered lowest none) = entries.filter (isGathered lowest skip) := by
        refine List.filter_congr fun e he => ?_
        have hne : skip ≠ some e.key := fun heq =>
          (hfirst e he).1 (Option.some.inj (hskip.symm.trans heq))
        simp [isGathered, hne]
      rw [run_gather_of_skip _ hskip, if_pos rfl, ih hrest, hnext,
        List.filter_cons_of_neg (by simp [isGathered, hskip])]
    · by_cases hbelow : isBelow lowest entry.key = true
      · -- The walk stops here, and would have stopped at every later entry.
        have hnone : entries.filter (isGathered lowest skip) = [] :=
          List.filter_eq_nil_iff.2 fun e he => by simp [isGathered, (hfirst e he).2 hbelow]
        rw [run_gather_of_isBelow _ hskip hbelow, if_neg (by simp),
          List.filter_cons_of_neg (by simp [isGathered, hbelow]), hnone, List.append_nil]
      · rw [run_gather_of_not_isBelow _ hskip hbelow, if_pos rfl, ih hrest,
          List.filter_cons_of_pos (by simp [isGathered, hskip, hbelow]), List.reverse_cons,
          List.append_assoc, List.singleton_append]

/-! ### The walk of a range -/

/-- The walk by which a range is gathered. -/
def wayOf : Direction → Bounds → MapWalk
  | .ascending, ⟨none, none⟩ => .ascend
  | .ascending, ⟨some lower, none⟩ => .ascendFrom lower
  | .ascending, ⟨lower, some upper⟩ => .ascendRange (lower.getD []) upper
  | .descending, ⟨_, none⟩ => .descend
  | .descending, ⟨_, some upper⟩ => .descendFrom upper

theorem walk_eq (map : OrderedMap) (direction : Direction) (bounds : Bounds) :
    walk map direction bounds =
      map.follow (gather (late bounds.lower direction)) (wayOf direction bounds) := by
  obtain ⟨lower, upper⟩ := bounds
  cases direction <;> cases lower <;> cases upper <;> rfl

theorem onWay_wayOf_descending (contents : Contents) (bounds : Bounds) :
    contents.onWay (wayOf .descending bounds) =
      (contents.entries.filter fun e => Tree.upTo bounds.upper e.key).reverse := by
  obtain ⟨lower, upper⟩ := bounds
  cases upper with
  | none => simp [wayOf, Contents.onWay, Tree.upTo]
  | some upper => rfl

theorem onWay_wayOf_ascending (contents : Contents) (bounds : Bounds) :
    contents.onWay (wayOf .ascending bounds) =
      contents.entries.filter fun e => bounds.contains e.key := by
  obtain ⟨lower, upper⟩ := bounds
  cases lower <;> cases upper <;>
    simp [wayOf, Contents.onWay, Bounds.contains, Bounds.lowerAdmits, Bounds.upperAdmits]

theorem isBelow_of_lt {lowest : Option Bytes} {a b : Bytes} (h : a < b)
    (hb : isBelow lowest b = true) : isBelow lowest a = true := by
  cases lowest with
  | none => cases hb
  | some lowest =>
    simp only [isBelow, Option.any_some, decide_eq_true_eq] at hb ⊢
    exact List.lt_trans h hb

/-- The entries on the way have different keys, and a descending one meets only smaller keys. -/
theorem pairwise_onWay (contents : Contents) (direction : Direction) (bounds : Bounds) :
    (contents.onWay (wayOf direction bounds)).Pairwise fun a b => a.key ≠ b.key ∧
      (isBelow (late bounds.lower direction) a.key = true →
        isBelow (late bounds.lower direction) b.key = true) := by
  cases direction with
  | ascending =>
    have hup : contents.entries.Pairwise fun a b => a.key ≠ b.key ∧
        (isBelow none a.key = true → isBelow none b.key = true) :=
      contents.sorted.imp fun h => ⟨Std.ne_of_lt h, id⟩
    rw [onWay_wayOf_ascending]
    exact hup.filter _
  | descending =>
    have hdown : contents.entries.reverse.Pairwise fun a b => a.key ≠ b.key ∧
        (isBelow bounds.lower a.key = true → isBelow bounds.lower b.key = true) :=
      List.pairwise_reverse.2 (contents.sorted.imp fun h => ⟨(Std.ne_of_lt h).symm, isBelow_of_lt h⟩)
    rw [onWay_wayOf_descending, ← List.filter_reverse]
    exact hdown.filter _

theorem not_isBelow (bounds : Bounds) (key : Bytes) :
    (!isBelow bounds.lower key) = bounds.lowerAdmits key := by
  rw [isBelow, Bounds.lowerAdmits]
  cases bounds.lower with
  | none => rfl
  | some lower =>
    rw [Option.any_some, Option.all_some, ← decide_not]
    exact decide_eq_decide.2 List.not_lt

theorem not_skipped_and_upTo (bounds : Bounds) (key : Bytes) :
    (decide (bounds.upper ≠ some key) && Tree.upTo bounds.upper key) = bounds.upperAdmits key := by
  rw [Tree.upTo, Bounds.upperAdmits]
  cases bounds.upper with
  | none => rfl
  | some upper =>
    by_cases hlt : key < upper
    · have hne : upper ≠ key := (Std.ne_of_lt hlt).symm
      simp [hlt, hne, List.le_of_lt hlt]
    · by_cases heq : upper = key
      · simp [heq, List.lt_irrefl]
      · have hnle : ¬ key ≤ upper := fun hle => heq (List.le_antisymm (List.not_lt.1 hlt) hle)
        simp [hlt, hnle]

/-- Up to the upper bound, the entries that are gathered are those within the bounds. -/
theorem isGathered_and_upTo (bounds : Bounds) (entry : Entry) :
    (isGathered bounds.lower bounds.upper entry && Tree.upTo bounds.upper entry.key) =
      bounds.contains entry.key := by
  rw [isGathered, not_isBelow, Bounds.contains, ← not_skipped_and_upTo, Bool.and_right_comm,
    Bool.and_comm (bounds.lowerAdmits entry.key)]

/-- What is on the way and gathered is the range. -/
theorem filter_isGathered_onWay (contents : Contents) (direction : Direction) (bounds : Bounds) :
    (contents.onWay (wayOf direction bounds)).filter
        (isGathered (late bounds.lower direction) (late bounds.upper direction)) =
      contents.range direction bounds := by
  cases direction with
  | ascending =>
    have hall : isGathered none none = fun _ => true := rfl
    rw [onWay_wayOf_ascending, late, late, hall, List.filter_true]
    rfl
  | descending =>
    rw [onWay_wayOf_descending, late, late, List.filter_reverse, List.filter_filter]
    simp only [isGathered_and_upTo]
    rfl

/-- The range of a map is that of its contents. -/
theorem range_eq {map : OrderedMap} {contents : Contents} (hc : map.Holds contents)
    (direction : Direction) (bounds : Bounds) :
    range map direction bounds = contents.range direction bounds := by
  rw [range, walk_eq, hc.follow_eq, ← filter_isGathered_onWay]
  exact seen_visitAll_gather (pairwise_onWay contents direction bounds) []

end OrderedStore.Memory
