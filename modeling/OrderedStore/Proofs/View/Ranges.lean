import Mathlib.Data.List.TakeWhile
import OrderedStore.Proofs.Backend.Faultless
import OrderedStore.Proofs.Session.Yielded
import OrderedStore.Proofs.View.Contents
import OrderedStore.Proofs.View.Leading

/-!
# Ranges of a view

A store honours bounds if its iterators show the entries within them, each once and in order.  A view of
such a store honours bounds as well: the range under the stem holds only keys that begin with the stem, so
that the view never ends before its source.

* `Store.HonoursBounds` is what is asked of the source; `Store.Faultless.honoursBounds` and
  `Store.HonoursBounds.view` are the stores that have it.
* `Iterator.drain_view_of_forall` follows the view of an iterator whose keys all begin with the stem.
* `Store.HonoursBounds.view_iterator_exact` says what iterators of a view show.
* `Store.HonoursBounds.iterateStem_exact` compares the walk of a stem with that of the view.
-/

namespace OrderedStore

variable {σ : Type}

/-! ### Views of iterators -/

namespace Iterator

variable {stem : Bytes} {bounds : Bounds} {source : Iterator}

theorem isPrefix_key_of_forall (h : ∀ entry ∈ source.drainAll.1, stem <+: entry.key) {entry : Entry}
    (hentry : source.entry? = some entry) : stem <+: entry.key := by
  refine h entry ?_
  rw [drainAll_of_entry?_eq_some hentry]
  exact List.mem_cons_self

/-- If all keys of the source begin with the stem, then the view is valid where its source is. -/
theorem valid_view_of_forall (h : ∀ entry ∈ source.drainAll.1, stem <+: entry.key) (bounds : Bounds) :
    (view stem bounds source).valid = source.valid := by
  cases hentry : source.entry? with
  | none => rw [valid, valid, hentry, entry?_view_of_eq_none hentry]
  | some entry =>
    obtain ⟨shown, -, hshown⟩ := entry?_view_of_isPrefix bounds hentry (isPrefix_key_of_forall h hentry)
    rw [valid_of_entry?_eq_some hentry, valid_of_entry?_eq_some hshown]

/-- If all keys of the source begin with the stem, then the view and its source show the same entries,
and move in step. -/
theorem drain_view_of_forall (h : ∀ entry ∈ source.drainAll.1, stem <+: entry.key) (bounds : Bounds)
    (count : Nat) :
    ((view stem bounds source).drain count).1.map (Entry.under stem) = (source.drain count).1 ∧
      ((view stem bounds source).drain count).2 = view stem bounds (source.drain count).2 := by
  obtain ⟨hentries, hlast⟩ := drain_view stem bounds source count
  have hall : (source.drain count).1.takeWhile (Entry.isUnder stem) = (source.drain count).1 :=
    List.takeWhile_eq_self_iff.2 fun entry hentry => Entry.isUnder_iff.2 (h entry
      (drain_append_drainAll source count ▸ List.mem_append_left _ hentry))
  rw [hall] at hentries
  have hlength := congrArg List.length hentries
  rw [List.length_map] at hlength
  refine ⟨hentries, hlast.trans ?_⟩
  rw [hlength, drain_length]

/-- If all keys of the source begin with the stem, then the view ends where its source does, and shows
everything that its source shows. -/
theorem drainAll_view_of_forall (h : ∀ entry ∈ source.drainAll.1, stem <+: entry.key) (bounds : Bounds) :
    (view stem bounds source).drainAll.1.map (Entry.under stem) = source.drainAll.1 :=
  (drain_view_of_forall h bounds source.remaining).1

theorem valid_drain_view_of_forall (h : ∀ entry ∈ source.drainAll.1, stem <+: entry.key) (bounds : Bounds)
    (count : Nat) :
    ((view stem bounds source).drain count).2.valid = (source.drain count).2.valid := by
  rw [(drain_view_of_forall h bounds count).2]
  refine valid_view_of_forall (fun entry hentry => h entry ?_) bounds
  rw [← drain_append_drainAll source count]
  exact List.mem_append_right _ hentry

end Iterator

/-! ### Stores that honour bounds -/

/-- In this state, an iterator can be made over any bounds, and shows the entries of the contents within
them, each once and in the order of the direction. -/
def Store.HonoursBounds (store : Store σ) (state : σ) (contents : Contents) : Prop :=
  ∀ direction bounds, bounds.hasEmpty = false →
    ∃ it after, (store.iterator direction bounds).run.run state = (.ok it, after) ∧
      it.drainAll.1 = contents.range direction bounds

namespace Store

variable {store : Store σ} {state : σ} {contents : Contents}

/-- A snapshot shows its entries. -/
theorem Walks.honoursBounds (h : store.Walks state contents) : store.HonoursBounds state contents := by
  intro direction bounds hbounds
  obtain ⟨it, hrun, hit⟩ := h direction bounds hbounds
  exact ⟨it, state, hrun, by rw [hit.drainAll.1, Iterator.drainAll_snapshot]⟩

/-- A store honours bounds if it cannot be told apart from one that does. -/
theorem Alike.honoursBounds {τ : Type} {R : σ → τ → Prop} {reference : Store τ} {state' : τ}
    (h : store.Alike R reference) (hR : R state state') (hb : reference.HonoursBounds state' contents) :
    store.HonoursBounds state contents := by
  intro direction bounds hbounds
  obtain ⟨shown, after', hreference, hentries⟩ := hb direction bounds hbounds
  obtain ⟨hanswer, -⟩ := h.iterator direction bounds state state' hR
  rw [hreference] at hanswer
  rcases hrun : (store.iterator direction bounds).run.run state with ⟨outcome, after⟩
  rw [hrun] at hanswer
  cases hanswer with
  | @ok it _ hit => exact ⟨it, after, rfl, hit.drainAll.1.trans hentries⟩

/-- Stores without faults honour bounds: those in memory, and those over engines that act as sorted maps. -/
theorem Faultless.honoursBounds {holds : σ → Contents → Prop} (h : store.Faultless holds)
    (hs : holds state contents) : store.HonoursBounds state contents :=
  h.alike.honoursBounds hs contents.walks.honoursBounds

namespace HonoursBounds

/-- The iterator of a view is made of one of the source under the stem, whose keys all begin with the
stem. -/
theorem run_view_iterator (h : store.HonoursBounds state contents) (stem : Bytes) (direction : Direction)
    {bounds : Bounds} (hbounds : bounds.hasEmpty = false) :
    ∃ source after,
      (store.iterator direction (bounds.under stem)).run.run state = (.ok source, after) ∧
        ((store.view stem).iterator direction bounds).run.run state =
          (.ok (.view stem bounds source), after) ∧
        source.drainAll.1 =
          ((contents.stripped stem).range direction bounds).map (Entry.under stem) ∧
        ∀ entry ∈ source.drainAll.1, stem <+: entry.key := by
  obtain ⟨source, after, hrun, hall⟩ := h direction _ (Bounds.hasEmpty_under hbounds stem)
  refine ⟨source, after, hrun, ?_, hall.trans (contents.range_under stem direction bounds), ?_⟩
  · rw [view_iterator_of_hasEmpty_eq_false _ _ hbounds, map_eq_pure_bind]
    exact StoreM.run_bind_of_ok hrun
  · intro entry hentry
    rw [hall, Contents.mem_range_iff] at hentry
    exact Bounds.isPrefix_of_contains_under hentry.2

/-- A view honours bounds if its source does. -/
theorem view (h : store.HonoursBounds state contents) (stem : Bytes) :
    (store.view stem).HonoursBounds state (contents.stripped stem) := by
  intro direction bounds hbounds
  obtain ⟨source, after, -, hview, hall, hstem⟩ := h.run_view_iterator stem direction hbounds
  refine ⟨_, after, hview, List.map_injective_iff.2 (Entry.under_injective stem) ?_⟩
  rw [Iterator.drainAll_view_of_forall hstem, hall]

/-- **Ranges of a view are exact.**  Let the source honour bounds, as stores without faults and views of
such stores do.  Then an iterator of the view can be made over any bounds.  It shows, in the order of the
direction, exactly the entries whose keys are within the bounds and are found in the source with the stem
before them; the source's entry for the stem itself is shown with the empty key if there is no lower bound.
However far it is moved, it is valid just as long as the iterator of the source is. -/
theorem view_iterator_exact (h : store.HonoursBounds state contents) (stem : Bytes)
    (direction : Direction) {bounds : Bounds} (hbounds : bounds.hasEmpty = false) :
    ∃ source after,
      (store.iterator direction (bounds.under stem)).run.run state = (.ok source, after) ∧
        ((store.view stem).iterator direction bounds).run.run state =
          (.ok (.view stem bounds source), after) ∧
        let it := Iterator.view stem bounds source
        (∀ k value, ⟨k, value⟩ ∈ it.drainAll.1 ↔ ⟨stem ++ k, value⟩ ∈ contents.entries ∧
            (∀ lower ∈ bounds.lower, lower ≤ k) ∧ ∀ upper ∈ bounds.upper, k < upper) ∧
          it.drainAll.1.Pairwise (fun a b => direction.Precedes a.key b.key) ∧
          (∀ value, ⟨[], value⟩ ∈ it.drainAll.1 ↔
            ⟨stem, value⟩ ∈ contents.entries ∧ bounds.lower = none) ∧
          ∀ count, (it.drain count).2.valid = (source.drain count).2.valid := by
  obtain ⟨source, after, hsource, hview, hall, hstem⟩ := h.run_view_iterator stem direction hbounds
  have hshown : (Iterator.view stem bounds source).drainAll.1 =
      (contents.stripped stem).range direction bounds :=
    List.map_injective_iff.2 (Entry.under_injective stem)
      ((Iterator.drainAll_view_of_forall hstem bounds).trans hall)
  have hmem : ∀ k value, ⟨k, value⟩ ∈ (Iterator.view stem bounds source).drainAll.1 ↔
      ⟨stem ++ k, value⟩ ∈ contents.entries ∧ bounds.contains k = true := fun k value => by
    rw [hshown, Contents.mem_range_iff, Contents.get?_stripped, Contents.get?_eq_some_iff]
  refine ⟨source, after, hsource, hview, fun k value => ?_, ?_, fun value => ?_,
    Iterator.valid_drain_view_of_forall hstem bounds⟩
  · rw [hmem, Bounds.contains_iff]
  · rw [hshown]
    exact (contents.stripped stem).pairwise_range direction bounds
  · rw [hmem, List.append_nil, Bounds.contains_nil_iff hbounds]

/-- Descending in a view of a view in memory, under a stem that is a greatest byte: the entry of the stem
itself comes last, and the entry at the upper bound does not come. -/
theorem view_iterator_exact_greatest :
    let ops : List Operation := [.set [1, 0xFF, 0xFF] [8], .set [1, 0xFF] [5], .set [2] [3],
      .set [1, 0xFE, 9] [9], .set [1, 0xFF, 7] [6]]
    let map := ops.foldl Memory.applyTo .empty
    let store := (Memory.store.view [1]).view [0xFF]
    ∃ it after, (store.iterator .descending ⟨none, some [0xFF]⟩).run.run map = (.ok it, after) ∧
      (⟨[7], [6]⟩ : Entry) ∈ it.drainAll.1 ∧ (⟨[], [5]⟩ : Entry) ∈ it.drainAll.1 ∧
      (⟨[0xFF], [8]⟩ : Entry) ∉ it.drainAll.1 ∧ it.drainAll.1.Pairwise fun a b => b.key < a.key := by
  intro ops map store
  have hmap : map.Holds (ops.foldl Contents.applyTo .empty) :=
    Memory.holds_foldl_applyTo OrderedMap.holds_empty ops
  have hbounds : (⟨none, some [0xFF]⟩ : Bounds).hasEmpty = false := rfl
  obtain ⟨source, after, -, hrun, hmem, hsorted, hstem, -⟩ := view_iterator_exact
    ((Faultless.memory.honoursBounds hmap).view [1]) [0xFF] .descending hbounds
  refine ⟨_, after, hrun, (hmem [7] [6]).2 ?_, (hstem [5]).2 ?_, mt (hmem [0xFF] [8]).1 ?_, hsorted⟩
  · decide +kernel
  · decide +kernel
  · decide +kernel

/-- **Walking a stem is walking its view.**  Let a store honour bounds, as stores without faults and stacks
of views over them do.  Then both the walk of a stem and the walk of the view under it can be made.  The first
shows exactly the entries of the store whose keys begin with the stem, in increasing order, and they are those
that the second shows, with the stem before their keys. -/
theorem iterateStem_exact (h : store.HonoursBounds state contents) (stem : Bytes) :
    ∃ it shown after, (store.iterateStem stem).run.run state = (.ok it, after) ∧
      ((store.view stem).iterator .ascending .all).run.run state = (.ok shown, after) ∧
      (∀ entry, entry ∈ it.drainAll.1 ↔ entry ∈ contents.entries ∧ stem <+: entry.key) ∧
      it.drainAll.1.Pairwise (fun a b => a.key < b.key) ∧
      it.drainAll.1 = shown.drainAll.1.map (Entry.under stem) := by
  have hbounds : Bounds.all.hasEmpty = false := rfl
  obtain ⟨source, after, hsource, hview, hall, hstem⟩ := h.run_view_iterator stem .ascending hbounds
  rw [← contents.range_under] at hall
  rw [Bounds.under_all] at hsource hall
  refine ⟨source, _, after, hsource, hview, fun entry => ?_, ?_,
    (Iterator.drainAll_view_of_forall hstem .all).symm⟩
  · rw [hall, Contents.mem_range_iff, ← Contents.mem_entries_iff, Bounds.contains_ofStem_iff]
  · rw [hall]
    exact contents.pairwise_range .ascending (.ofStem stem)

/-- A stem that ends in the greatest byte, walked in a view of a store over an engine; a key behind the end
of the stem and one of another view are left out. -/
theorem iterateStem_exact_carry :
    let state : Scripted := { Scripted.empty with
      contents := .ofList [⟨[1, 2, 0xFF], [5]⟩, ⟨[1, 2, 0xFF, 0], [6]⟩, ⟨[1, 3], [7]⟩, ⟨[2, 2, 0xFF], [8]⟩] }
    let store := (Scripted.engine true).store.view [1]
    ∃ it shown after, (store.iterateStem [2, 0xFF]).run.run state = (.ok it, after) ∧
      ((store.view [2, 0xFF]).iterator .ascending .all).run.run state = (.ok shown, after) ∧
      (⟨[2, 0xFF, 0], [6]⟩ : Entry) ∈ it.drainAll.1 ∧ (⟨[3], [7]⟩ : Entry) ∉ it.drainAll.1 ∧
      it.drainAll.1 = shown.drainAll.1.map (Entry.under [2, 0xFF]) := by
  intro state store
  have hstate : state.FaultlessWith state.contents := ⟨rfl, rfl, rfl, rfl⟩
  obtain ⟨it, shown, after, hrun, hview, hmem, -, hsame⟩ := iterateStem_exact
    ((Faultless.honoursBounds (.engine (Scripted.actsAs true)) hstate).view [1]) [2, 0xFF]
  refine ⟨it, shown, after, hrun, hview, (hmem ⟨[2, 0xFF, 0], [6]⟩).2 ?_, mt (hmem ⟨[3], [7]⟩).1 ?_, hsame⟩
  · decide +kernel
  · decide +kernel

end HonoursBounds

end Store

end OrderedStore
