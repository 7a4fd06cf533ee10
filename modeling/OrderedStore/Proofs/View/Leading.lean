import OrderedStore.Proofs.Iterator.Drain
import OrderedStore.Proofs.View.Compose

/-!
# The leading run of a view

The iterator of a view shows the entries of its source up to the first key without the stem, whatever the
source goes on with, and moves its source no further.

* `Entry.isUnder` tells the entries whose keys begin with the stem.
* `Iterator.drain_view` follows the view of an iterator, `Iterator.drainAll_view` to its end.
-/

namespace OrderedStore

/-! ### Entries -/

/-- The key of the entry begins with the stem. -/
def Entry.isUnder (stem : Bytes) (entry : Entry) : Bool := stem.isPrefixOf entry.key

theorem Entry.isUnder_iff {stem : Bytes} {entry : Entry} : entry.isUnder stem = true ↔ stem <+: entry.key :=
  List.isPrefixOf_iff_prefix

/-- The key before which a stem has been put is read off again. -/
theorem Entry.under_injective (stem : Bytes) : Function.Injective (Entry.under stem) := by
  intro a b h
  have hstrip : (a.under stem).strip? stem = some b := strip?_eq_some_iff.2 h
  rw [strip?_eq_some_iff.2 rfl] at hstrip
  exact Option.some.inj hstrip

namespace Iterator

/-! ### Views -/

variable {stem : Bytes} {bounds : Bounds} {source : Iterator}

theorem entry?_view_of_eq_none (h : source.entry? = none) : entry? (view stem bounds source) = none := by
  unfold entry?
  rw [h]
  rfl

/-- Where its source stands on a key with the stem, the view stands on the same entry. -/
theorem entry?_view_of_isPrefix (bounds : Bounds) {entry : Entry} (h : source.entry? = some entry)
    (hstem : stem <+: entry.key) :
    ∃ shown : Entry, shown.under stem = entry ∧ entry? (view stem bounds source) = some shown := by
  cases hstrip : entry.strip? stem with
  | none => exact absurd hstem (Entry.strip?_eq_none_iff.1 hstrip)
  | some shown =>
    refine ⟨shown, (Entry.strip?_eq_some_iff.1 hstrip).symm, ?_⟩
    unfold entry?
    rw [h]
    exact hstrip

/-- Where its source stands on a key without the stem, the view is invalid. -/
theorem entry?_view_of_not_isPrefix (bounds : Bounds) {entry : Entry} (h : source.entry? = some entry)
    (hstem : ¬ stem <+: entry.key) : entry? (view stem bounds source) = none := by
  unfold entry?
  rw [h]
  exact Entry.strip?_eq_none_iff.2 hstem

/-- A view reads the entries of its source up to the first key without the stem, without the stem, and has
then moved its source by as many entries as it has read. -/
theorem drain_view (stem : Bytes) (bounds : Bounds) (source : Iterator) (count : Nat) :
    ((view stem bounds source).drain count).1.map (Entry.under stem) =
        (source.drain count).1.takeWhile (Entry.isUnder stem) ∧
      ((view stem bounds source).drain count).2 =
        view stem bounds (source.drain ((view stem bounds source).drain count).1.length).2 := by
  induction count generalizing source with
  | zero => exact ⟨rfl, rfl⟩
  | succ count ih =>
    cases hentry : source.entry? with
    | none =>
      rw [drain_of_entry?_eq_none (entry?_view_of_eq_none hentry), drain_of_entry?_eq_none hentry]
      exact ⟨rfl, rfl⟩
    | some entry =>
      by_cases hstem : stem <+: entry.key
      · obtain ⟨shown, rfl, hshown⟩ := entry?_view_of_isPrefix bounds hentry hstem
        obtain ⟨hentries, hlast⟩ := ih source.advance
        rw [drain_of_entry?_eq_some hshown, drain_of_entry?_eq_some hentry,
          List.takeWhile_cons_of_pos (Entry.isUnder_iff.2 hstem), List.map_cons, List.length_cons,
          drain_of_entry?_eq_some hentry]
        exact ⟨congrArg _ hentries, hlast⟩
      · have hinvalid := entry?_view_of_not_isPrefix bounds hentry hstem
        rw [drain_of_entry?_eq_none hinvalid, drain_of_entry?_eq_some hentry,
          List.takeWhile_cons_of_neg (mt Entry.isUnder_iff.1 hstem)]
        exact ⟨rfl, rfl⟩

/-- Drained to its end, a view has moved its source to the first entry that it does not show. -/
theorem drainAll_view (stem : Bytes) (bounds : Bounds) (source : Iterator) :
    let shown := (view stem bounds source).drainAll.1
    shown.map (Entry.under stem) = source.drainAll.1.takeWhile (Entry.isUnder stem) ∧
      (view stem bounds source).drainAll.2 = view stem bounds (source.drain shown.length).2 ∧
      ∀ foreign, source.drainAll.1[shown.length]? = some foreign → ¬ stem <+: foreign.key := by
  intro shown
  obtain ⟨hentries, hlast⟩ := drain_view stem bounds source source.remaining
  refine ⟨hentries, hlast, fun foreign hforeign hstem => ?_⟩
  rw [← entry?_drain] at hforeign
  obtain ⟨shown', -, hshown⟩ := entry?_view_of_isPrefix bounds hforeign hstem
  have hinvalid := (view stem bounds source).valid_drainAll
  have hlast' : (view stem bounds source).drainAll.2 = view stem bounds (source.drain shown.length).2 := hlast
  rw [hlast', valid, hshown] at hinvalid
  cases hinvalid

end Iterator

end OrderedStore
