import OrderedStore.Proofs.View.Ranges

/-!
# Reading and walking a view

What an iterator of a view yields is what reading the view answers, with one exception: a key of the
source that is the stem itself is yielded as the empty key, which cannot be read.

* `Handle.run_get` and `Handle.run_iterator` are the calls of a stack of views.
* `Session.view_yields_reads` compares them in a session.
-/

namespace OrderedStore

variable {σ : Type} {store : Store σ} {holds : σ → Contents → Prop} {state : σ} {contents : Contents}

namespace Handle

variable {stem : Bytes} {source : Handle Unit}

/-- Through views, a key is read under their stems. -/
theorem run_get (h : store.Alike holds Contents.store) (hs : holds state contents) {key : Bytes}
    (hkey : key ≠ []) :
    ∃ after, ((((view stem source).store fun _ => store).get key).run.run state) =
      (.ok ((contents.stripped (view stem source).stem).get? key), after) := by
  obtain ⟨hanswer, -⟩ := (view_alike h stem source).get key state contents hs
  have heq := sameOutcome_eq_iff.1 hanswer
  rw [Contents.view_get _ _ hkey] at heq
  exact ⟨_, Prod.ext heq rfl⟩

/-- Through views, an iterator shows the range of what they show. -/
theorem run_iterator (h : store.Alike holds Contents.store) (hs : holds state contents)
    (direction : Direction) {bounds : Bounds} (hbounds : bounds.hasEmpty = false) :
    ∃ it after, ((((view stem source).store fun _ => store).iterator direction bounds).run.run state) =
        (.ok it, after) ∧
      it.drainAll.1 = (contents.stripped (view stem source).stem).range direction bounds :=
  (view_alike h stem source).honoursBounds hs (contents.walks.view _).honoursBounds direction bounds hbounds

end Handle

namespace Session

variable {session : Session Unit σ} {number : Nat} {stem : Bytes} {source : Handle Unit}

theorem step_get_view (h : store.Alike holds Contents.store) (hs : holds session.state contents)
    (hhandle : session.handles[number]? = some (.view stem source)) {key : Bytes} (hkey : key ≠ []) :
    (session.step (fun _ => store) (.onStore number (.get key))).1 =
      .ok (.value ((contents.stripped (source.stem ++ stem)).get? key)) := by
  obtain ⟨after, hrun⟩ := Handle.run_get h hs hkey
  rw [step_get hhandle hrun]
  rfl

theorem step_get_view_nil (store : Store σ)
    (hhandle : session.handles[number]? = some (.view stem source)) :
    session.step (fun _ => store) (.onStore number (.get [])) =
      (.error (.failed .emptyKey), session) := by
  have hcall : ((((Handle.view stem source).store fun _ => store).get []).run.run session.state) =
      (.error .emptyKey, session.state) := rfl
  rw [step_get hhandle hcall]
  rfl

/-- A new iterator of a view will yield the range of what the view shows. -/
theorem step_iterate_view (h : store.Alike holds Contents.store) (hs : holds session.state contents)
    (hhandle : session.handles[number]? = some (.view stem source)) (direction : Direction)
    {bounds : Bounds} (hbounds : bounds.hasEmpty = false) :
    ∃ it after, session.step (fun _ => store) (.onStore number (.iterate direction bounds)) =
        (.ok (.made session.iterators.length), after) ∧
      after.iterators[session.iterators.length]? = some it ∧
      it.drainAll.1 = (contents.stripped (source.stem ++ stem)).range direction bounds := by
  obtain ⟨it, state', hiterator, hshown⟩ := Handle.run_iterator h hs direction hbounds
  exact ⟨it, _, step_iterate hhandle hiterator, List.getElem?_concat_length, hshown⟩

/-- **What a view yields can be read through it.**  On a store that acts as sorted contents, any steps
are taken, and an iterator is made of a view or of a stack of views.  Whatever is yielded, by whatever
steps, has a key that is not empty and reads as its value in the state in which the iterator was made,
unless the source holds a value at the stem itself and the range has no lower bound: that value is
yielded with an empty key.  And whatever reads as a value is yielded by the iterator without bounds. -/
theorem view_yields_reads (h : store.Alike holds Contents.store) (hs : holds state contents)
    (before : List Step)
    (hclose : (∃ number, .onStore number .close ∈ before) →
      CallsAgree holds Eq store.close Contents.store.close)
    (number : Nat) (direction : Direction) (bounds : Bounds) (hbounds : bounds.hasEmpty = false) :
    let roots := fun _ : Unit => store
    let session := ((Session.ofRoot () state).run roots before).2
    ∀ stem source, session.handles[number]? = some (.view stem source) →
      let made := session.step roots (.onStore number (.iterate direction bounds))
      made.1 = .ok (.made session.iterators.length) ∧
      (∀ after, ∀ entry ∈ made.2.yielded roots session.iterators.length after,
        (entry.key ≠ [] ∧ (session.step roots (.onStore number (.get entry.key))).1 =
            .ok (.value (some entry.value))) ∨
          (entry.key = [] ∧ bounds.lower = none ∧ ∃ contents, holds session.state contents ∧
            contents.get? (source.stem ++ stem) = some entry.value)) ∧
      (bounds = .all → ∀ key value,
        (session.step roots (.onStore number (.get key))).1 = .ok (.value (some value)) →
          ⟨key, value⟩ ∈ made.2.yielded roots session.iterators.length
            [.onIterator session.iterators.length (.drain none)]) := by
  intro roots session stem source hhandle made
  -- The store of the session holds contents, as it did when the session began.
  obtain ⟨-, hreached⟩ := Session.run_alike before (fun _ : Unit => h) (fun hc _ => hclose hc)
    (Session.alike_ofRoot () hs)
  have hstate := hreached.state
  obtain ⟨it, reached, hmade, hnew, hshown⟩ := step_iterate_view h hstate hhandle direction hbounds
  have heq : made = _ := hmade
  rw [heq]
  refine ⟨rfl, fun after entry hentry => ?_, ?_⟩
  · obtain ⟨_, -, hfirst⟩ := yielded_run roots hnew after
    have hmem := hfirst.subset (List.mem_append_left _ hentry)
    rw [hshown, Contents.mem_range_iff] at hmem
    obtain ⟨hvalue, hcontains⟩ := hmem
    by_cases hkey : entry.key = []
    · rw [hkey] at hcontains
      rw [hkey, Contents.get?_stripped, List.append_nil] at hvalue
      exact .inr ⟨hkey, Bounds.lower_eq_none_of_contains_nil hbounds hcontains, _, hstate, hvalue⟩
    · exact .inl ⟨hkey, by rw [step_get_view h hstate hhandle hkey, hvalue]⟩
  · rintro rfl key value hget
    rw [yielded_drain roots hnew, hshown, Contents.mem_range_iff]
    refine ⟨?_, Bounds.contains_all key⟩
    by_cases hkey : key = []
    · rw [hkey, step_get_view_nil store hhandle] at hget
      cases hget
    · rw [step_get_view h hstate hhandle hkey] at hget
      exact Answer.value.inj (Except.ok.inj hget)

/-- A view of a view on an engine: the iterator is older than a deletion, and the value at the two stems
comes as that of the empty key. -/
theorem view_yields_reads_scripted :
    let roots := fun _ : Unit => (Scripted.engine false).store
    let session := ((Session.ofRoot () Scripted.empty).run roots
      [.onStore 0 (.writeAll false [.set [1, 2] [9], .set [1, 2, 3] [7], .set [1, 3] [8]]),
        .onStore 0 (.view [1]), .onStore 1 (.view [2])]).2
    let made := session.step roots (.onStore 2 (.iterate .descending .all))
    let after : List Step := [.onStore 2 (.write false (.delete [3])), .onIterator 0 .next,
      .onIterator 0 (.drain none)]
    made.2.yielded roots 0 after = [⟨[3], [7]⟩, ⟨[], [9]⟩] ∧
      (session.step roots (.onStore 2 (.get [3]))).1 = .ok (.value (some [7])) ∧
      (⟨[3], [7]⟩ : Entry) ∈ made.2.yielded roots 0 [.onIterator 0 (.drain none)] ∧
      ∃ contents, session.state.FaultlessWith contents ∧ contents.get? [1, 2] = some [9] := by
  intro roots session made after
  obtain ⟨-, hyields, hreads⟩ := view_yields_reads (Scripted.actsAs false).store_alike
    (show Scripted.empty.FaultlessWith .empty from ⟨rfl, rfl, rfl, rfl⟩)
    [.onStore 0 (.writeAll false [.set [1, 2] [9], .set [1, 2, 3] [7], .set [1, 3] [8]]),
      .onStore 0 (.view [1]), .onStore 1 (.view [2])] (by simp) 2 .descending .all rfl
    [2] (.view [1] (.root ())) rfl
  have hyielded : made.2.yielded roots 0 after = [⟨[3], [7]⟩, ⟨[], [9]⟩] := by decide +kernel
  have hread : (session.step roots (.onStore 2 (.get [3]))).1 = .ok (.value (some [7])) := by
    obtain ⟨-, hread⟩ | ⟨hnil, -⟩ := hyields after ⟨[3], [7]⟩ (hyielded ▸ List.mem_cons_self)
    · exact hread
    · cases hnil
  have hfound : (⟨[3], [7]⟩ : Entry) ∈ made.2.yielded roots 0 [.onIterator 0 (.drain none)] :=
    hreads rfl [3] [7] hread
  refine ⟨hyielded, hread, hfound, ?_⟩
  obtain ⟨hne, -⟩ | ⟨-, -, hstem⟩ := hyields after ⟨[], [9]⟩ (hyielded ▸ by simp)
  · exact absurd rfl hne
  · exact hstem

/-- The value at the stem of a view is yielded with the empty key, which is refused. -/
theorem view_yields_stem_unread :
    let roots := fun _ : Unit => Memory.store
    let session := ((Session.ofRoot () OrderedMap.empty).run roots
      [.onStore 0 (.write false (.set [97] [1])), .onStore 0 (.view [97])]).2
    let made := session.step roots (.onStore 1 (.iterate .ascending .all))
    made.2.yielded roots 0 [.onIterator 0 (.drain none)] = [⟨[], [1]⟩] ∧
      (session.step roots (.onStore 1 (.get []))).1 = .error (.failed .emptyKey) :=
  ⟨rfl, rfl⟩

end Session

end OrderedStore
