import OrderedStore.Proofs.Backend.Reference
import OrderedStore.Proofs.Simulation.Session
import OrderedStore.Proofs.View.Compose

/-!
# Contents seen through a view

A view of sorted contents shows the entries whose keys begin with its stem, without the stem.  These are
sorted contents again, and the view reads and walks as a store that holds them.

* `Contents.stripped` is what a view shows.
* `Contents.range_under` compares ranges under a stem with ranges of what is shown.
* `Store.Walks` says that iterators show contents, `Store.Walks.view` what those of a view then show.
* `Contents.view_get`, `Contents.view_has`, `Contents.view_write` and `Contents.view_iterator` are the calls
  of a view.
* `Handle.get_of_ne_nil`, `Handle.has_of_ne_nil`, `Handle.write_of_ne_nil` and
  `Handle.iterator_of_hasEmpty_eq_false` are the calls of a stack of views on any store.
* `Handle.view_alike` says what any stack of views shows of any store that acts as sorted contents.
-/

namespace OrderedStore

namespace Contents

/-! ### What is shown -/

theorem pairwise_strip? (stem : Bytes) {entries : List Entry}
    (h : entries.Pairwise fun a b => a.key < b.key) :
    (entries.filterMap (Entry.strip? stem)).Pairwise fun a b => a.key < b.key := by
  refine h.filterMap _ ?_
  intro a b hab a' ha b' hb
  rw [Entry.strip?_eq_some_iff.1 ha, Entry.strip?_eq_some_iff.1 hb] at hab
  exact (Bytes.append_lt_append_iff stem).1 hab

/-- The entries whose keys begin with the stem, without it. -/
def stripped (contents : Contents) (stem : Bytes) : Contents :=
  ⟨contents.entries.filterMap (Entry.strip? stem), pairwise_strip? stem contents.sorted⟩

theorem mem_entries_stripped_iff {contents : Contents} {stem : Bytes} {entry : Entry} :
    entry ∈ (contents.stripped stem).entries ↔ entry.under stem ∈ contents.entries := by
  rw [stripped, List.mem_filterMap]
  simp only [Entry.strip?_eq_some_iff, exists_eq_right]

theorem get?_stripped (contents : Contents) (stem key : Bytes) :
    (contents.stripped stem).get? key = contents.get? (stem ++ key) := by
  refine Option.ext fun value => ?_
  rw [get?_eq_some_iff, mem_entries_stripped_iff, get?_eq_some_iff]
  rfl

/-- A range under a stem is found among the entries that are shown. -/
theorem filter_contains_under (stem : Bytes) (bounds : Bounds) (entries : List Entry) :
    (entries.filter fun entry => (bounds.under stem).contains entry.key) =
      ((entries.filterMap (Entry.strip? stem)).filter fun entry => bounds.contains entry.key).map
        (Entry.under stem) := by
  induction entries with
  | nil => rfl
  | cons entry entries ih =>
    cases hstrip : entry.strip? stem with
    | none =>
      have hout : ¬ (bounds.under stem).contains entry.key = true := fun hin =>
        Entry.strip?_eq_none_iff.1 hstrip (Bounds.isPrefix_of_contains_under hin)
      rw [List.filter_cons, if_neg hout, List.filterMap_cons_none hstrip, ih]
    | some shown =>
      have hentry := Entry.strip?_eq_some_iff.1 hstrip
      have hin : (bounds.under stem).contains entry.key = bounds.contains shown.key := by
        rw [hentry]
        exact Bounds.contains_under_append bounds stem shown.key
      rw [List.filterMap_cons_some hstrip, List.filter_cons, List.filter_cons, hin, ih]
      by_cases hshown : bounds.contains shown.key = true
      · rw [if_pos hshown, if_pos hshown, List.map_cons, hentry]
      · rw [if_neg hshown, if_neg hshown]

theorem range_under (contents : Contents) (stem : Bytes) (direction : Direction) (bounds : Bounds) :
    contents.range direction (bounds.under stem) =
      ((contents.stripped stem).range direction bounds).map (Entry.under stem) := by
  cases direction with
  | ascending => exact filter_contains_under stem bounds contents.entries
  | descending =>
    exact (congrArg List.reverse (filter_contains_under stem bounds contents.entries)).trans
      (List.map_reverse).symm

end Contents

/-- The view of a snapshot whose keys all begin with the stem is a snapshot. -/
theorem Iterator.view_snapshot_alike (stem : Bytes) (bounds between : Bounds) (entries : List Entry) :
    Alike (view stem bounds (snapshot between (entries.map (Entry.under stem))))
      (snapshot bounds entries) := by
  refine ⟨fun a b => ∃ entries : List Entry,
    a = view stem bounds (snapshot between (entries.map (Entry.under stem))) ∧
      b = snapshot bounds entries, ⟨?_, ?_, ?_, ?_, ?_⟩, entries, rfl, rfl⟩
  · rintro _ _ ⟨entries, rfl, rfl⟩
    cases entries with
    | nil => rfl
    | cons entry entries => exact Entry.strip?_eq_some_iff.2 rfl
  · rintro _ _ ⟨entries, rfl, rfl⟩
    rfl
  · rintro _ _ ⟨entries, rfl, rfl⟩
    rfl
  · rintro _ _ ⟨entries, rfl, rfl⟩ -
    exact ⟨entries.tail, by rw [advance, advance, List.map_tail], rfl⟩
  · rintro _ _ ⟨entries, rfl, rfl⟩
    exact ⟨[], rfl, rfl⟩

/-! ### Walking -/

/-- Making an iterator leaves the state as it is, and the iterator cannot be told apart from a snapshot of
contents. -/
def Store.Walks {σ : Type} (store : Store σ) (state : σ) (contents : Contents) : Prop :=
  ∀ direction bounds, bounds.hasEmpty = false →
    ∃ it, (store.iterator direction bounds).run.run state = (.ok it, state) ∧
      it.Alike (.snapshot bounds (contents.range direction bounds))

/-- A view walks what it shows of the contents. -/
theorem Store.Walks.view {σ : Type} {store : Store σ} {state : σ} {contents : Contents}
    (h : store.Walks state contents) (stem : Bytes) :
    (store.view stem).Walks state (contents.stripped stem) := by
  intro direction bounds hbounds
  obtain ⟨it, hrun, hit⟩ := h direction _ (Bounds.hasEmpty_under hbounds stem)
  rw [Contents.range_under] at hit
  refine ⟨.view stem bounds it, ?_,
    (hit.view stem bounds).trans (Iterator.view_snapshot_alike stem bounds _ _)⟩
  rw [view_iterator_of_hasEmpty_eq_false _ _ hbounds, map_eq_pure_bind]
  exact StoreM.run_bind_of_ok hrun

/-! ### Calls of a view -/

namespace Contents

theorem walks (contents : Contents) : store.Walks contents contents := fun direction _ hbounds =>
  ⟨_, contents.run_iterator hbounds direction, .refl _⟩

theorem view_get (contents : Contents) (stem : Bytes) {key : Bytes} (h : key ≠ []) :
    ((store.view stem).get key).run.run contents =
      (.ok ((contents.stripped stem).get? key), contents) := by
  rw [Store.view_get_of_ne_nil _ _ h, get?_stripped]
  exact contents.run_get (by simp [h])

theorem view_has (contents : Contents) (stem : Bytes) {key : Bytes} (h : key ≠ []) :
    ((store.view stem).has key).run.run contents =
      (.ok ((contents.stripped stem).get? key).isSome, contents) := by
  rw [Store.view_has_of_ne_nil _ _ h, get?_stripped]
  exact contents.run_has (by simp [h])

theorem view_write (contents : Contents) (stem : Bytes) {op : Operation} (h : op.key ≠ [])
    (sync : Bool) :
    ((store.view stem).write sync op).run.run contents =
      (.ok (), contents.applyTo (op.under stem)) := by
  rw [Store.view_write_of_ne_nil _ _ h]
  exact contents.run_write (by simp [h]) sync

/-- An iterator of a view cannot be told apart from a snapshot of the range that is shown. -/
theorem view_iterator (contents : Contents) (stem : Bytes) (direction : Direction) {bounds : Bounds}
    (h : bounds.hasEmpty = false) :
    ∃ it, ((store.view stem).iterator direction bounds).run.run contents = (.ok it, contents) ∧
      it.Alike (.snapshot bounds ((contents.stripped stem).range direction bounds)) :=
  contents.walks.view stem direction bounds h

end Contents

/-! ### Stacks of views -/

variable {ρ σ : Type}

namespace Handle

/-- The stems of the views of a handle, the innermost first. -/
def stem : Handle ρ → Bytes
  | root _ => []
  | view stem source => source.stem ++ stem

/-- The store below the views of a handle. -/
def base : Handle ρ → ρ
  | root name => name
  | view _ source => source.base

section Calls

variable (roots : ρ → Store σ) (handle : Handle ρ) {key : Bytes} {op : Operation} {bounds : Bounds}

/-- A read through a stack of views is one read of the store below them, with all stems before the key. -/
theorem get_of_ne_nil (h : key ≠ []) :
    (handle.store roots).get key = (roots handle.base).get (handle.stem ++ key) := by
  induction handle generalizing key with
  | root name => rfl
  | view inner source ih =>
    show ((source.store roots).view inner).get key = _
    rw [Store.view_get_of_ne_nil _ _ h, ih (by simp [h]), stem, List.append_assoc]
    rfl

theorem has_of_ne_nil (h : key ≠ []) :
    (handle.store roots).has key = (roots handle.base).has (handle.stem ++ key) := by
  induction handle generalizing key with
  | root name => rfl
  | view inner source ih =>
    show ((source.store roots).view inner).has key = _
    rw [Store.view_has_of_ne_nil _ _ h, ih (by simp [h]), stem, List.append_assoc]
    rfl

theorem write_of_ne_nil (h : op.key ≠ []) (sync : Bool) :
    (handle.store roots).write sync op = (roots handle.base).write sync (op.under handle.stem) := by
  induction handle generalizing op with
  | root name => rw [stem, Operation.under_nil]; rfl
  | view inner source ih =>
    show ((source.store roots).view inner).write sync op = _
    rw [Store.view_write_of_ne_nil _ _ h, ih (by simp [h]), Operation.under_under]
    rfl

/-- An iterator through a stack of views is made from one of the store below them, under all stems. -/
theorem iterator_of_hasEmpty_eq_false (h : bounds.hasEmpty = false) (direction : Direction) :
    ∃ shown : Iterator → Iterator, (handle.store roots).iterator direction bounds =
      shown <$> (roots handle.base).iterator direction (bounds.under handle.stem) := by
  induction handle generalizing bounds with
  | root name =>
    refine ⟨id, ?_⟩
    rw [stem, Bounds.under_nil, id_map]
    rfl
  | view inner source ih =>
    obtain ⟨shown, hsource⟩ := ih (Bounds.hasEmpty_under h inner)
    refine ⟨Iterator.view inner bounds ∘ shown, ?_⟩
    show ((source.store roots).view inner).iterator direction bounds = _
    rw [Store.view_iterator_of_hasEmpty_eq_false _ _ h, hsource, Bounds.under_under, comp_map]
    rfl

end Calls

/-- A stack of views cannot be told apart from one view of the store below them. -/
theorem view_store_alike (roots : ρ → Store σ) (stem : Bytes) (source : Handle ρ) :
    ((view stem source).store roots).Alike Eq ((roots source.base).view (view stem source).stem) := by
  induction source generalizing stem with
  | root name => exact .refl _
  | view inner source ih =>
    have hcompose := Store.view_view_alike (source.store roots) inner stem
    have hall := hcompose.trans_eq (ih (inner ++ stem))
    rwa [Handle.stem, ← List.append_assoc] at hall

/-- A stack of views of a store that acts as sorted contents shows them without its stems. -/
theorem view_alike {store : Store σ} {holds : σ → Contents → Prop}
    (h : store.Alike holds Contents.store) (stem : Bytes) (source : Handle Unit) :
    ((view stem source).store fun _ => store).Alike holds
      (Contents.store.view (view stem source).stem) :=
  (store_alike (fun _ => h) (view stem source)).trans_eq
    (view_store_alike (fun _ => Contents.store) stem source)

end Handle

end OrderedStore
