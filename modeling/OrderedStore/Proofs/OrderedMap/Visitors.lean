import OrderedStore.Proofs.OrderedMap.Reference

/-!
# Walks and visitors

A walk through an ordered map shows a visitor the entries of its range, each once and in the order of its
direction, up to and including the first entry at which the visitor asks to stop.  The visitor keeps a
state, on which its answers depend.

* `MapWalk.Admits` and `MapWalk.direction` say which entries are on the way of a walk, and in which order.
* `Visitor.Sees` says which of the entries on its way a visitor is shown.
* `Visitor.run_visitAll` follows a visitor along a list, `OrderedMap.follow_sees_of_reachable` through a map.
-/

namespace OrderedStore

/-! ### The entries on the way -/

/-- A walk goes over the keys of its range. -/
def MapWalk.Admits : MapWalk → Bytes → Prop
  | ascend, _ => True
  | ascendFrom pivot, key => pivot ≤ key
  | ascendRange lower upper, key => lower ≤ key ∧ key < upper
  | descend, _ => True
  | descendFrom pivot, key => key ≤ pivot

/-- The order in which a walk meets the keys. -/
def MapWalk.direction : MapWalk → Direction
  | ascend | ascendFrom _ | ascendRange _ _ => .ascending
  | descend | descendFrom _ => .descending

namespace Contents

theorem mem_onWay_iff {contents : Contents} {walk : MapWalk} {entry : Entry} :
    entry ∈ contents.onWay walk ↔
      contents.get? entry.key = some entry.value ∧ walk.Admits entry.key := by
  rw [← mem_entries_iff]
  cases walk <;> simp [onWay, MapWalk.Admits]

theorem pairwise_onWay (contents : Contents) (walk : MapWalk) :
    (contents.onWay walk).Pairwise fun a b => walk.direction.Precedes a.key b.key := by
  cases walk with
  | ascend => exact contents.sorted
  | ascendFrom pivot => exact contents.sorted.filter _
  | ascendRange lower upper => exact contents.sorted.filter _
  | descend => exact List.pairwise_reverse.2 contents.sorted
  | descendFrom pivot => exact List.pairwise_reverse.2 (contents.sorted.filter _)

end Contents

/-! ### Visitors -/

/-- A visitor with a state, which answers whether the walk is to go on. -/
abbrev Visitor (σ : Type) := Entry → StateM σ Bool

namespace Visitor

variable {σ : Type} (visit : Visitor σ)

/-- The state of a visitor that has been shown the entries. -/
def stateAfter (entries : List Entry) (s : σ) : σ :=
  entries.foldl (fun s entry => ((visit entry).run s).2) s

/-- The answer to an entry that is shown behind others. -/
def goesOn (before : List Entry) (entry : Entry) (s : σ) : Bool :=
  ((visit entry).run (visit.stateAfter before s)).1

/-- The visitor that also keeps a record of the entries it is shown. -/
def recording : Visitor (List Entry × σ) := fun entry state =>
  let (goesOn, s) := (visit entry).run state.2
  (goesOn, state.1 ++ [entry], s)

/-- Of the entries on its way a visitor is shown all up to and including the first at which it asks to
stop. -/
structure Sees (s : σ) (way seen : List Entry) : Prop where
  first : seen <+: way
  goesOn : ∀ before entry after, seen = before ++ entry :: after → after ≠ [] →
    visit.goesOn before entry s = true
  stops : seen ≠ way → ∃ before entry, seen = before ++ [entry] ∧ visit.goesOn before entry s = false

variable {visit} {s : σ} {entry : Entry} {way seen : List Entry}

theorem sees_nil (visit : Visitor σ) (s : σ) : visit.Sees s [] [] where
  first := List.nil_prefix
  goesOn _ _ _ h := by simp at h
  stops h := absurd rfl h

/-- A visitor that goes on sees what it sees of the entries behind. -/
theorem Sees.cons (hentry : ((visit entry).run s).1 = true)
    (h : visit.Sees ((visit entry).run s).2 way seen) : visit.Sees s (entry :: way) (entry :: seen) where
  first := List.cons_prefix_cons.2 ⟨rfl, h.first⟩
  goesOn before other after hseen hafter := by
    cases before with
    | nil =>
      obtain ⟨rfl, -⟩ := List.cons.inj hseen
      exact hentry
    | cons _ before =>
      obtain ⟨rfl, hrest⟩ := List.cons.inj hseen
      exact h.goesOn before other after hrest hafter
  stops hne := by
    obtain ⟨before, last, rfl, hlast⟩ := h.stops fun heq => hne (congrArg _ heq)
    exact ⟨entry :: before, last, rfl, hlast⟩

/-- A visitor that asks to stop sees nothing behind. -/
theorem sees_singleton (hentry : ((visit entry).run s).1 = false) (way : List Entry) :
    visit.Sees s (entry :: way) [entry] where
  first := List.cons_prefix_cons.2 ⟨rfl, List.nil_prefix⟩
  goesOn before other after hseen hafter := by
    have hlength := congrArg List.length hseen
    cases after with
    | nil => exact absurd rfl hafter
    | cons _ after => simp at hlength; omega
  stops _ := ⟨[], entry, rfl, hentry⟩

/-- Along a list a visitor is shown what it sees of it, and no more. -/
theorem run_visitAll (visit : Visitor σ) (way : List Entry) (s : σ) :
    ∃ seen, visit.Sees s way seen ∧
      ((Tree.visitAll visit way).run s).2 = visit.stateAfter seen s ∧
      ∀ shown, ((Tree.visitAll visit.recording way).run (shown, s)).2 =
        (shown ++ seen, visit.stateAfter seen s) := by
  induction way generalizing s with
  | nil => exact ⟨[], sees_nil visit s, rfl, fun shown => by rw [List.append_nil]; rfl⟩
  | cons entry way ih =>
    have hrecording : ∀ shown, (visit.recording entry).run (shown, s) =
        (((visit entry).run s).1, shown ++ [entry], ((visit entry).run s).2) := fun _ => rfl
    cases hentry : ((visit entry).run s).1 with
    | true =>
      obtain ⟨seen, hsees, hstate, hshown⟩ := ih ((visit entry).run s).2
      refine ⟨entry :: seen, hsees.cons hentry, ?_, fun shown => ?_⟩
      · rw [Tree.run_visitAll_cons, if_pos hentry]
        exact hstate
      · rw [Tree.run_visitAll_cons, hrecording, if_pos hentry, hshown, List.append_assoc]
        rfl
    | false =>
      have hstop : ¬ ((visit entry).run s).1 = true := by simp [hentry]
      refine ⟨[entry], sees_singleton hentry way, ?_, fun shown => ?_⟩
      · rw [Tree.run_visitAll_cons, if_neg hstop]
        rfl
      · rw [Tree.run_visitAll_cons, hrecording, if_neg hstop]
        rfl

end Visitor

/-! ### Walks -/

namespace OrderedMap

variable {map : OrderedMap}

/-- A well-formed map holds the list of its entries. -/
theorem WellFormed.holds (h : map.WellFormed) :
    map.Holds ⟨map.toList, (Tree.ordered_iff_pairwise map.root).1 h.ordered⟩ := ⟨h, rfl⟩

theorem WellFormed.exists_holds (h : map.WellFormed) : ∃ contents, map.Holds contents :=
  ⟨_, h.holds⟩

/-- Through a map a visitor is shown what it sees of the entries on the way. -/
theorem Holds.follow_sees {contents : Contents} (hc : map.Holds contents) (walk : MapWalk) {σ : Type}
    (visit : Visitor σ) (s : σ) :
    ∃ seen, visit.Sees s (contents.onWay walk) seen ∧
      (map.follow visit walk).run s = ((), visit.stateAfter seen s) ∧
      (map.follow visit.recording walk).run ([], s) = ((), seen, visit.stateAfter seen s) := by
  obtain ⟨seen, hsees, hstate, hshown⟩ := visit.run_visitAll (contents.onWay walk) s
  refine ⟨seen, hsees, ?_, ?_⟩
  · rw [hc.follow_eq]
    exact congrArg (Prod.mk ()) hstate
  · rw [hc.follow_eq]
    exact congrArg (Prod.mk ()) (hshown [])

/-- **Walks show their range up to the stop.**  Through a map that insertions and removals have made of the
empty one, any walk is taken.  On its way are the entries whose keys are in its range, each once and in
strictly increasing order, or strictly decreasing if the walk descends.  Whatever the visitor does with its
state, it is called on these entries from the first one on, up to and including the first at which it asks to
stop, and on no other. -/
theorem follow_sees_of_reachable (h : map.Reachable) (walk : MapWalk) :
    ∃ way : List Entry,
      (∀ entry, entry ∈ way ↔ map.get? entry.key = some entry.value ∧ walk.Admits entry.key) ∧
      way.Pairwise (fun a b => walk.direction.Precedes a.key b.key) ∧
      ∀ {σ : Type} (visit : Visitor σ) (s : σ), ∃ seen, visit.Sees s way seen ∧
        (map.follow visit walk).run s = ((), visit.stateAfter seen s) ∧
        (map.follow visit.recording walk).run ([], s) = ((), seen, visit.stateAfter seen s) := by
  obtain ⟨contents, hc⟩ := h.wellFormed.exists_holds
  refine ⟨contents.onWay walk, fun entry => ?_, contents.pairwise_onWay walk, hc.follow_sees walk⟩
  rw [Contents.mem_onWay_iff, hc.get?_eq]

/-- A visitor that stops once the values it was shown have two bytes, in a range that has an entry more; the
tree has been rotated, and an entry of the range has been removed. -/
theorem follow_sees_of_reachable_spent :
    let visit : Visitor Nat := fun entry used =>
      (decide (used + entry.value.length < 2), used + entry.value.length)
    let whole := ((((empty.insert ⟨[1], [6]⟩).1.insert ⟨[3], []⟩).1.insert ⟨[4], [7]⟩).1.insert
      ⟨[5], [1, 1]⟩).1.insert ⟨[7], [9]⟩
    let map := (whole.1.remove [4]).1
    ∃ way : List Entry, (⟨[7], [9]⟩ : Entry) ∈ way ∧ (⟨[4], [7]⟩ : Entry) ∉ way ∧
      way.Pairwise (fun a b => a.key < b.key) ∧
      visit.Sees 0 way [⟨[3], []⟩, ⟨[5], [1, 1]⟩] ∧
      (map.follow visit.recording (.ascendRange [2] [8])).run ([], 0) =
        ((), [⟨[3], []⟩, ⟨[5], [1, 1]⟩], 2) := by
  intro visit whole map
  have hmap : map.Reachable :=
    (((((Reachable.empty.insert _).insert _).insert _).insert _).insert ⟨[7], [9]⟩).remove [4]
  obtain ⟨way, hway, hsorted, hvisit⟩ := (follow_sees_of_reachable hmap) (.ascendRange [2] [8])
  obtain ⟨seen, hsees, -, hrun⟩ := hvisit visit 0
  have hshown : (map.follow visit.recording (.ascendRange [2] [8])).run ([], 0) =
      ((), [⟨[3], []⟩, ⟨[5], [1, 1]⟩], 2) := rfl
  obtain rfl : seen = [⟨[3], []⟩, ⟨[5], [1, 1]⟩] :=
    (Prod.mk.inj (congrArg Prod.snd (hrun.symm.trans hshown))).1
  have hlast : map.get? [7] = some [9] := by decide
  have hremoved : map.get? [4] ≠ some [7] := by decide
  exact ⟨way, (hway _).2 ⟨hlast, by decide, by decide⟩, fun h => hremoved ((hway _).1 h).1, hsorted, hsees,
    hshown⟩

end OrderedMap

end OrderedStore
