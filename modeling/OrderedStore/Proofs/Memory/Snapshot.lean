import OrderedStore.Proofs.Backend.Reference
import OrderedStore.Proofs.Session.Yielded
import OrderedStore.Proofs.Simulation.Session

/-!
# Iterators in memory are snapshots

An iterator over a store in memory yields the entries that its range had when the iterator was made,
each once and in order, whatever else the session does while the iterator is moved.

* `Session.snapshot_step` and `Session.snapshot_run` say that a snapshot shows its entries in turn.
* `Memory.step_iterate` says what an iterator over a store in memory is.
* `Memory.yielded_eq_range` combines them.
-/

namespace OrderedStore

variable {ρ σ : Type}

/-! ### Snapshots -/

/-- Unless it is closed, a snapshot keeps all entries that it does not pass. -/
theorem Iterator.respond_snapshot (bounds : Bounds) (rest : List Entry) {request : IteratorRequest}
    (h : request ≠ .close) :
    ∃ rest', ((snapshot bounds rest).respond request).2 = snapshot bounds rest' ∧
      (snapshot bounds rest).passed request ++ rest' = rest := by
  cases request with
  | close => exact absurd rfl h
  | next =>
    cases rest with
    | nil => exact ⟨[], rfl, rfl⟩
    | cons entry rest => exact ⟨rest, rfl, rfl⟩
  | drain count =>
    refine ⟨rest.drop (count.getD rest.length), ?_, ?_⟩
    · rw [respond, remaining, drain_snapshot]
    · rw [passed, remaining, drain_snapshot]
      exact List.take_append_drop _ _
  | key => cases rest <;> exact ⟨_, rfl, rfl⟩
  | value => cases rest <;> exact ⟨_, rfl, rfl⟩
  | valid => exact ⟨rest, rfl, rfl⟩
  | entry => exact ⟨rest, rfl, rfl⟩
  | bounds => exact ⟨rest, rfl, rfl⟩
  | error => exact ⟨rest, rfl, rfl⟩

namespace Session

variable (roots : ρ → Store σ) {session : Session ρ σ} {number : Nat} {bounds : Bounds}
  {rest : List Entry}

/-- A step passes entries of a snapshot from the front. -/
theorem snapshot_step (h : session.iterators[number]? = some (.snapshot bounds rest)) {step : Step}
    (hstep : step ≠ .onIterator number .close) :
    ∃ rest', (session.step roots step).2.iterators[number]? = some (.snapshot bounds rest') ∧
      session.passed number step ++ rest' = rest := by
  obtain ⟨request, rfl, hafter, hpassed⟩ | ⟨-, hafter, hpassed⟩ := iterators_step roots h step
  · have hopen : request ≠ .close := fun hclose => hstep (hclose ▸ rfl)
    obtain ⟨rest', hrespond, hrest⟩ := Iterator.respond_snapshot bounds rest hopen
    exact ⟨rest', by rw [hafter, hrespond], by rw [hpassed, hrest]⟩
  · exact ⟨rest, hafter, by rw [hpassed, List.nil_append]⟩

/-- What a snapshot has yielded in a run and what it still holds are its entries. -/
theorem snapshot_run (h : session.iterators[number]? = some (.snapshot bounds rest))
    {steps : List Step} (hsteps : .onIterator number .close ∉ steps) :
    ∃ rest', (session.run roots steps).2.iterators[number]? = some (.snapshot bounds rest') ∧
      session.yielded roots number steps ++ rest' = rest := by
  induction steps generalizing session rest with
  | nil => exact ⟨rest, h, rfl⟩
  | cons step steps ih =>
    obtain ⟨hstep, hrest⟩ := not_or.1 (mt List.mem_cons.2 hsteps)
    obtain ⟨between, hbetween, hpassed⟩ := snapshot_step roots h (Ne.symm hstep)
    obtain ⟨rest', hafter, hyielded⟩ := ih hbetween hrest
    refine ⟨rest', hafter, ?_⟩
    rw [yielded, List.append_assoc, hyielded, hpassed]

end Session

/-! ### Iterators over stores in memory -/

namespace Memory

/-- The entries are those of a map within the bounds, each once and in the order of the direction. -/
structure IsRange (map : OrderedMap) (direction : Direction) (bounds : Bounds)
    (entries : List Entry) : Prop where
  mem_iff : ∀ entry, entry ∈ entries ↔ map.get? entry.key = some entry.value ∧
    (∀ lower ∈ bounds.lower, lower ≤ entry.key) ∧ ∀ upper ∈ bounds.upper, entry.key < upper
  sorted : entries.Pairwise fun a b => direction.Precedes a.key b.key

theorem isRange_range {map : OrderedMap} {contents : Contents} (hc : map.Holds contents)
    (direction : Direction) (bounds : Bounds) :
    IsRange map direction bounds (range map direction bounds) where
  mem_iff entry := by
    rw [range_eq hc, Contents.mem_range_iff, hc.get?_eq, Bounds.contains_iff]
  sorted := by
    rw [range_eq hc]
    exact contents.pairwise_range direction bounds

/-- The map of a session on a store in memory holds contents. -/
theorem exists_holds_run (steps : List Step) :
    ∃ contents, ((Session.ofRoot () OrderedMap.empty).run (fun _ => store) steps).2.state.Holds
      contents :=
  ⟨_, (Session.run_alike steps (fun _ : Unit => store_alike) (fun _ _ => .pure rfl)
    (Session.alike_ofRoot () OrderedMap.holds_empty)).2.state⟩

/-- A new iterator is a snapshot of its range. -/
theorem step_iterate {session : Session Unit OrderedMap} {number : Nat}
    (hhandle : session.handles[number]? = some (.root ())) (direction : Direction) {bounds : Bounds}
    (hbounds : bounds.hasEmpty = false) :
    session.step (fun _ => store) (.onStore number (.iterate direction bounds)) =
      (.ok (.made session.iterators.length),
        { session with
          iterators := session.iterators ++
            [.snapshot bounds (range session.state direction bounds)] }) := by
  have hrequire : requireBounds bounds = .ok () := by
    rw [requireBounds, hbounds]
    rfl
  have hiterator : (store.iterator direction bounds).run.run session.state =
      (.ok (.snapshot bounds (range session.state direction bounds)), session.state) := by
    show (StoreM.ofExcept (requireBounds bounds) >>= _).run.run session.state = _
    rw [hrequire]
    rfl
  exact Session.step_iterate hhandle hiterator

/-- **Iterators in memory are exact snapshots.**  In a session that has taken any steps on a store in
memory, an iterator is made over any bounds.  Whatever steps follow, as long as the iterator is not
closed: it stands on the entry behind those that it has yielded, these come first among the entries
that the range had when the iterator was made, and once the iterator is invalid they are all of
them. -/
theorem yielded_eq_range (before : List Step) (number : Nat) (direction : Direction)
    (bounds : Bounds) (hbounds : bounds.hasEmpty = false) :
    let roots := fun _ : Unit => store
    let session := ((Session.ofRoot () OrderedMap.empty).run roots before).2
    session.handles[number]? = some (.root ()) →
      let made := session.step roots (.onStore number (.iterate direction bounds))
      made.1 = .ok (.made session.iterators.length) ∧
        ∃ entries, IsRange session.state direction bounds entries ∧
          ∀ after : List Step, .onIterator session.iterators.length .close ∉ after →
            let yielded := made.2.yielded roots session.iterators.length after
            ∃ it, (made.2.run roots after).2.iterators[session.iterators.length]? = some it ∧
              it.entry? = entries[yielded.length]? ∧ yielded <+: entries ∧
                (it.valid = false → yielded = entries) := by
  intro roots session hhandle made
  -- The map of the session is well formed because its contents were held all along.
  obtain ⟨contents, hc⟩ := exists_holds_run before
  have hmade : made = _ := step_iterate hhandle direction hbounds
  have hnew : made.2.iterators[session.iterators.length]? =
      some (.snapshot bounds (range session.state direction bounds)) := by
    rw [hmade]
    exact List.getElem?_concat_length
  refine ⟨by rw [hmade], _, isRange_range hc direction bounds, fun after hafter => ?_⟩
  obtain ⟨rest, hit, hrest⟩ := Session.snapshot_run roots hnew hafter
  refine ⟨_, hit, ?_, ⟨rest, hrest⟩, fun hinvalid => ?_⟩
  · rw [← hrest, List.getElem?_append_right Nat.le.refl, Nat.sub_self]
    exact List.head?_eq_getElem?
  · have hnil : rest = [] := by
      cases rest with
      | nil => rfl
      | cons entry rest => cases hinvalid
    rw [← hrest, hnil, List.append_nil]

/-- A descending iterator whose upper bound is a key of the map; its entries are deleted and
overwritten and the store is closed before they are read. -/
theorem yielded_eq_range_descending :
    let roots := fun _ : Unit => store
    let session := ((Session.ofRoot () OrderedMap.empty).run roots
      [.onStore 0 (.writeAll false [.set [1] [6], .set [3] [8], .set [2] [7], .set [4] [9]])]).2
    let made := session.step roots (.onStore 0 (.iterate .descending ⟨some [2], some [4]⟩))
    IsRange session.state .descending ⟨some [2], some [4]⟩ [⟨[3], [8]⟩, ⟨[2], [7]⟩] ∧
      made.2.yielded roots 0 [.onStore 0 (.write true (.delete [3])), .onIterator 0 .next,
        .onStore 0 .batch, .onBatch 0 (.push (.set [2] [])), .onBatch 0 (.write false),
        .onStore 0 .close, .onIterator 0 (.drain none)] = [⟨[3], [8]⟩, ⟨[2], [7]⟩] := by
  obtain ⟨-, entries, hrange, hafter⟩ := yielded_eq_range
    [.onStore 0 (.writeAll false [.set [1] [6], .set [3] [8], .set [2] [7], .set [4] [9]])]
    0 .descending ⟨some [2], some [4]⟩ rfl rfl
  obtain ⟨it, hit, -, -, hall⟩ := hafter
    [.onStore 0 (.write true (.delete [3])), .onIterator 0 .next, .onStore 0 .batch,
      .onBatch 0 (.push (.set [2] [])), .onBatch 0 (.write false), .onStore 0 .close,
      .onIterator 0 (.drain none)] (by simp)
  have hinvalid : it.valid = false := by
    cases hit
    rfl
  have h := hall hinvalid
  cases h
  exact ⟨hrange, rfl⟩
end Memory

end OrderedStore
