import OrderedStore.Engine.Scripted
import OrderedStore.Memory
import OrderedStore.Proofs.Batch.Requests
import OrderedStore.Proofs.Session.Actions

/-!
# The batches of a session

A batch of a session is changed by the requests that it is sent and by nothing else, and a closed batch
not even by these.

* `Session.step_onBatch` says that a session hands requests on and reports what comes of the call.
* `Session.getElem?_batches_run` says that a closed batch stays as it is in every run.
* `Session.closed_batch_refuses` combines them.
-/

namespace OrderedStore

open StoreM

variable {ρ σ : Type}

namespace Session

variable {roots : ρ → Store σ} {session : Session ρ σ} {number : Nat} {batch : Batch σ}

/-! ### Requests to a batch -/

/-- A request to a batch of the session is answered by the batch, and the call that the batch makes is
made on the stores. -/
theorem step_onBatch (h : session.batches[number]? = some batch) (request : BatchRequest) :
    session.step roots (.onBatch number request) =
      let (after, storeCall) := batch.send request
      let (outcome, state) := storeCall.run.run session.state
      ((outcome.mapError .failed).map fun _ => .done,
        { session with state, batches := session.batches.set number after }) := by
  let between : Session ρ σ :=
    { session with batches := session.batches.set number (batch.send request).1 }
  have hset : (setBatch number (batch.send request).1 : SessionM ρ σ Unit).run.run session =
      (.ok (), between) := rfl
  rcases hcall : (batch.send request).2.run.run session.state with ⟨outcome, state⟩
  have hrun : (call (batch.send request).2 : SessionM ρ σ Unit).run.run between =
      (outcome.mapError .failed, { between with state }) := run_call hcall
  show (onBatch number request).run.run session = _
  rw [onBatch, run_bind_of_ok (run_get session), run_bind_of_ok (run_lookup h)]
  refine (run_bind_of_ok hset).trans ?_
  simp only [hcall]
  cases outcome with
  | ok _ => rw [run_bind_of_ok hrun]; rfl
  | error error => rw [run_bind_of_error hrun]; rfl

/-- A request to a batch that the session does not hold. -/
theorem step_onBatch_of_eq_none (h : session.batches[number]? = none) (request : BatchRequest) :
    session.step roots (.onBatch number request) = (.error .unknown, session) := by
  show (onBatch number request).run.run session = _
  rw [onBatch, run_bind_of_ok (run_get session)]
  refine run_bind_of_error ?_
  rw [lookup, h]
  rfl

theorem set_batches_self (h : session.batches[number]? = some batch) :
    session.batches.set number batch = session.batches := by
  obtain ⟨hlt, rfl⟩ := List.getElem?_eq_some_iff.1 h
  exact List.set_getElem_self _

/-- A closed batch answers by itself, and the session stays as it is. -/
theorem step_onBatch_of_isClosed (roots : ρ → Store σ) (h : session.batches[number]? = some batch)
    (hclosed : batch.isClosed = true) (request : BatchRequest) :
    session.step roots (.onBatch number request) =
      (((batch.refusal request).mapError .failed).map fun _ => .done, session) := by
  rw [step_onBatch h, Batch.send_of_isClosed hclosed]
  show (_, { session with batches := session.batches.set number batch }) = _
  rw [set_batches_self h]

/-! ### Closed batches -/

/-- What is asked of a batch that is there is stable: new batches come behind it. -/
theorem stable_getElem?_batches (number : Nat) (batch : Batch σ) :
    Stable fun session : Session ρ σ => session.batches[number]? = some batch where
  state h _ := h
  handles h _ := h
  transactions h _ := h
  addIterator h _ := h
  addBatch h _ := by rw [List.getElem?_append_left (List.getElem?_eq_some_iff.1 h).1, h]

/-- Only its own requests change a batch. -/
theorem getElem?_batches_step_of_ne (roots : ρ → Store σ) (h : session.batches[number]? = some batch)
    {step : Step} (hother : ∀ request, step ≠ .onBatch number request) :
    (session.step roots step).2.batches[number]? = some batch := by
  have hstable := stable_getElem?_batches (ρ := ρ) number batch
  refine hstable.keeps_answer roots (fun _ request _ => .onIterator (fun _ _ h => h) request) ?_ session h
  rintro n request rfl
  -- A request to another batch replaces that one.
  have hn : n ≠ number := by
    rintro rfl
    exact hother request rfl
  exact hstable.onBatch (fun _ _ h => (List.getElem?_set_ne hn).trans h) request

/-- No step changes a closed batch. -/
theorem getElem?_batches_step (h : session.batches[number]? = some batch)
    (hclosed : batch.isClosed = true) (step : Step) :
    (session.step roots step).2.batches[number]? = some batch := by
  by_cases hown : ∃ request, step = .onBatch number request
  · obtain ⟨request, rfl⟩ := hown
    rw [step_onBatch_of_isClosed roots h hclosed]
    exact h
  · exact getElem?_batches_step_of_ne roots h (not_exists.1 hown)

/-- A closed batch stays as it is, whatever steps are taken. -/
theorem getElem?_batches_run (h : session.batches[number]? = some batch)
    (hclosed : batch.isClosed = true) (steps : List Step) :
    (session.run roots steps).2.batches[number]? = some batch := by
  induction steps generalizing session with
  | nil => exact h
  | cons step steps ih => exact ih (getElem?_batches_step h hclosed step)

/-- **A closed batch refuses everything.**  A batch of any kind is written, with whatever outcome, or
closed, and any steps follow.  From then on it can be closed again, and refuses every write and every
operation; the session stays as it is, so no store is changed and no engine called.  It refuses as a
closed batch, except that the batch of a view has looked at the key before. -/
theorem closed_batch_refuses (roots : ρ → Store σ) (session : Session ρ σ)
    (h : session.batches[number]? = some batch) {closing : BatchRequest}
    (hclosing : closing.closes = true) (later : List Step) (request : BatchRequest) :
    let reached := ((session.step roots (.onBatch number closing)).2.run roots later).2
    reached.step roots (.onBatch number request) =
      (match request with
        | .close => .ok .done
        | .write _ => .error (.failed .batchClosed)
        | .push op =>
          .error (.failed (if batch.isView = true ∧ op.key = [] then .emptyKey else .batchClosed)),
        reached) := by
  intro reached
  have hclosed := batch.isClosed_send hclosing
  have hafter : (session.step roots (.onBatch number closing)).2.batches[number]? =
      some (batch.send closing).1 := by
    rw [step_onBatch h]
    exact List.getElem?_set_self (List.getElem?_eq_some_iff.1 h).1
  have hreached : reached.batches[number]? = some (batch.send closing).1 :=
    getElem?_batches_run hafter hclosed later
  rw [step_onBatch_of_isClosed roots hreached hclosed]
  cases request with
  | close => rfl
  | write sync => rfl
  | push op =>
    rw [Batch.refusal, Batch.isView_send]
    rfl

/-- The batch of a view of a view, on an engine that fails to write it. -/
theorem closed_batch_refuses_after_failure :
    let roots := fun _ : Unit => (Scripted.engine false).store
    let faulty : Scripted := { Scripted.empty with faults := [(.put [1, 2, 3], "full")] }
    let session := ((ofRoot () faulty).run roots [.onStore 0 (.view [1]), .onStore 1 (.view [2]),
      .onStore 2 .batch, .onBatch 0 (.push (.set [3] [7]))]).2
    let written := session.step roots (.onBatch 0 (.write true))
    let reached := (written.2.run roots [.onStore 2 (.get [3]), .onStore 0 .batch]).2
    written.1 = .error (.failed (.rolledBack 0 (.backend "full"))) ∧
      reached.step roots (.onBatch 0 (.push (.set [3] []))) = (.error (.failed .batchClosed), reached) ∧
      reached.step roots (.onBatch 0 (.write false)) = (.error (.failed .batchClosed), reached) ∧
      reached.step roots (.onBatch 0 .close) = (.ok .done, reached) := by
  intro roots faulty session written reached
  have hrefuses := closed_batch_refuses roots session
    (show session.batches[0]? = some _ from rfl) (show (BatchRequest.write true).closes = true from rfl)
    [.onStore 2 (.get [3]), .onStore 0 .batch]
  exact ⟨rfl, hrefuses (.push (.set [3] [])), hrefuses (.write false), hrefuses .close⟩

/-- A closed batch of a view reports that an empty key is empty. -/
theorem closed_batch_reports_emptyKey :
    let roots := fun _ : Unit => Memory.store
    let closed := ((ofRoot () OrderedMap.empty).run roots
      [.onStore 0 (.view [97]), .onStore 1 .batch, .onBatch 0 .close]).2
    (closed.batches[0]?.map Batch.isClosed) = some true ∧
      (closed.step roots (.onBatch 0 (.push (.set [] [])))).1 = .error (.failed .emptyKey) ∧
      (closed.step roots (.onBatch 0 (.push (.set [] [])))).1 ≠ .error (.failed .batchClosed) := by
  refine ⟨rfl, rfl, ?_⟩
  intro h
  cases h

end Session

end OrderedStore
