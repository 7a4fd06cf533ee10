import OrderedStore.Proofs.Backend.Faultless
import OrderedStore.Proofs.Batch.Waiting
import OrderedStore.Proofs.Contents
import OrderedStore.Proofs.View.Contents

/-!
# What batches write

The operations of a batch wait, in whatever session, until the batch is written.  Then the last one on each
key takes effect, on what the store holds at that time.

* `Session.Waits` says which operations wait in a batch of a session; `Session.waits_step` and
  `Session.waits_run` say that they stay there.
* `Session.exists_holds_run` says that a session on a store without faults keeps to sorted contents.
* `Session.batch_writes_last_operations` says what comes of every request to an open batch.
-/

namespace OrderedStore

open StoreM

variable {ρ σ : Type}

/-! ### New batches -/

/-- A new batch of a stack of views is one of the store below them. -/
theorem Handle.newBatch_waits (roots : ρ → Store σ) {apply : Bool → List Operation → StoreM σ Unit}
    (handle : Handle ρ) (h : (roots handle.base).newBatch = pure (.queued apply .empty)) :
    ∃ batch, (handle.store roots).newBatch = pure batch ∧ batch.Waits apply [] handle.stem := by
  induction handle with
  | root name => exact ⟨_, h, .queued⟩
  | view inner source ih =>
    obtain ⟨batch, hnew, hwaits⟩ := ih h
    refine ⟨.view inner batch, ?_, hwaits.view inner⟩
    show (source.store roots).newBatch >>= _ = _
    rw [hnew]
    rfl

/-- The batches of a store without faults apply their operations in order. -/
theorem Store.Faultless.newBatch_eq {store : Store σ} {holds : σ → Contents → Prop}
    (h : store.Faultless holds) :
    ∃ apply, store.newBatch = pure (.queued apply .empty) ∧
      ∀ sync (ops : List Operation), (∀ op ∈ ops, op.key ≠ []) →
        Yields holds (apply sync ops) (fun _ => ()) fun contents => ops.foldl Contents.applyTo contents := by
  cases h with
  | memory =>
    refine ⟨fun _ => Memory.applyAll, rfl, fun _ ops _ map contents hs => ?_⟩
    exact ⟨_, rfl, Memory.holds_foldl_applyTo hs ops⟩
  | @engine _ engine _ h => exact ⟨engine.applyBatch, rfl, fun sync _ hops => h.applyBatch_yields sync hops⟩

/-! ### Steps -/

/-- The operations that a step lets wait in a batch: those with a key that it pushes. -/
def Step.pushedTo (number : Nat) : Step → List Operation
  | .onBatch n (.push op) => if n = number ∧ op.key ≠ [] then [op] else []
  | _ => []

theorem Step.pushedTo_push {number : Nat} {op : Operation} (h : op.key ≠ []) :
    (Step.onBatch number (.push op)).pushedTo number = [op] :=
  if_pos ⟨rfl, h⟩

theorem Step.pushedTo_push_of_key_eq_nil {number : Nat} {op : Operation} (h : op.key = []) :
    (Step.onBatch number (.push op)).pushedTo number = [] :=
  if_neg fun hboth => hboth.2 h

theorem Step.pushedTo_of_ne {number : Nat} {step : Step}
    (h : ∀ request, step ≠ .onBatch number request) : step.pushedTo number = [] := by
  unfold Step.pushedTo
  split
  · refine if_neg fun hboth => ?_
    obtain ⟨rfl, -⟩ := hboth
    exact h _ rfl
  · rfl

theorem Step.key_ne_nil_of_mem_pushedTo {number : Nat} {step : Step} {op : Operation}
    (h : op ∈ step.pushedTo number) : op.key ≠ [] := by
  unfold Step.pushedTo at h
  split at h
  · obtain ⟨⟨-, hkey⟩, hop⟩ := List.mem_ite_nil_right.1 h
    rw [List.mem_singleton.1 hop]
    exact hkey
  · cases h

namespace Session

variable {roots : ρ → Store σ} {session : Session ρ σ} {number : Nat}
  {apply : Bool → List Operation → StoreM σ Unit} {ops : List Operation} {stem : Bytes}

/-- The operations wait in the batch of this number. -/
def Waits (number : Nat) (apply : Bool → List Operation → StoreM σ Unit) (ops : List Operation)
    (stem : Bytes) (session : Session ρ σ) : Prop :=
  ∃ batch, session.batches[number]? = some batch ∧ batch.Waits apply ops stem

/-- An operation without a key is refused, and the session stays as it is. -/
theorem Waits.step_push_of_key_eq_nil (h : session.Waits number apply ops stem) {op : Operation}
    (hkey : op.key = []) :
    session.step roots (.onBatch number (.push op)) = (.error (.failed .emptyKey), session) := by
  obtain ⟨batch, hbatch, hwaits⟩ := h
  have hopen : ¬ (batch.isView = false ∧ batch.isClosed = true) := by
    rw [hwaits.isClosed_eq_false]
    exact fun hboth => Bool.false_ne_true hboth.2
  rw [step_onBatch hbatch, Batch.send_push_of_key_eq_nil batch hkey, if_neg hopen]
  show (_, { session with batches := session.batches.set number batch }) = _
  rw [set_batches_self hbatch]
  rfl

/-- An operation with a key waits from then on; nothing else changes. -/
theorem Waits.step_push (roots : ρ → Store σ) (h : session.Waits number apply ops stem) {op : Operation}
    (hkey : op.key ≠ []) :
    ∃ batches, session.step roots (.onBatch number (.push op)) = (.ok .done, { session with batches }) ∧
      ({ session with batches } : Session ρ σ).Waits number apply (ops ++ [op.under stem]) stem := by
  obtain ⟨batch, hbatch, hwaits⟩ := h
  obtain ⟨after, hsend, hafter⟩ := hwaits.send_push hkey
  refine ⟨session.batches.set number after, ?_, after, ?_, hafter⟩
  · rw [step_onBatch hbatch, hsend]
    rfl
  · exact List.getElem?_set_self (List.getElem?_eq_some_iff.1 hbatch).1

/-- A step that does not close the batch leaves what waits, and may add to it. -/
theorem waits_step (roots : ρ → Store σ) (h : session.Waits number apply ops stem) (step : Step)
    (hopen : ∀ request, step = .onBatch number request → request.closes = false) :
    (session.step roots step).2.Waits number apply
      (ops ++ (step.pushedTo number).map (Operation.under stem)) stem := by
  by_cases hown : ∃ request, step = .onBatch number request
  · obtain ⟨request, rfl⟩ := hown
    cases request with
    | push op =>
      by_cases hkey : op.key = []
      · rw [h.step_push_of_key_eq_nil hkey, Step.pushedTo_push_of_key_eq_nil hkey]
        simpa using h
      · obtain ⟨batches, hstep, hafter⟩ := h.step_push roots hkey
        rw [hstep, Step.pushedTo_push hkey]
        exact hafter
    | write sync => cases hopen _ rfl
    | close => cases hopen _ rfl
  · obtain ⟨batch, hbatch, hwaits⟩ := h
    rw [Step.pushedTo_of_ne (not_exists.1 hown)]
    refine ⟨batch, getElem?_batches_step_of_ne roots hbatch (not_exists.1 hown), ?_⟩
    simpa using hwaits

/-- What is pushed in a run waits in its order, if the batch is not closed. -/
theorem waits_run (roots : ρ → Store σ) (h : session.Waits number apply ops stem) {steps : List Step}
    (hopen : ∀ request, .onBatch number request ∈ steps → request.closes = false) :
    (session.run roots steps).2.Waits number apply
      (ops ++ (steps.flatMap (Step.pushedTo number)).map (Operation.under stem)) stem := by
  induction steps generalizing session ops with
  | nil =>
    rw [List.flatMap_nil, List.map_nil, List.append_nil]
    exact h
  | cons step steps ih =>
    have hfirst := waits_step roots h step fun request hstep =>
      hopen request (hstep ▸ List.mem_cons_self)
    have hrest := ih hfirst fun request hstep => hopen request (List.mem_cons_of_mem _ hstep)
    rw [List.append_assoc, ← List.map_append, ← List.flatMap_cons] at hrest
    exact hrest

/-! ### Requests to open batches -/

/-- A session on a store without faults keeps to sorted contents. -/
theorem exists_holds_run {store : Store σ} {holds : σ → Contents → Prop} (hstore : store.Faultless holds)
    {state : σ} {contents : Contents} (hstate : holds state contents) {steps : List Step}
    (hclose : (∃ n, .onStore n .close ∈ steps) → Yields holds store.close (fun _ => ()) id) :
    ∃ contents, holds ((ofRoot () state).run (fun _ => store) steps).2.state contents := by
  have halike := (run_alike steps (fun _ : Unit => hstore.alike)
    (fun hc _ => (hclose hc).agree (fun _ => rfl) fun _ => rfl) (alike_ofRoot () hstate)).2
  exact ⟨_, halike.state⟩

/-- A batch that is open, and what comes of every request to it. -/
structure Collects (roots : ρ → Store σ) (holds : σ → Contents → Prop) (number : Nat)
    (queue : List Operation) (session : Session ρ σ) : Prop where
  /-- An operation without a key is refused, and nothing changes. -/
  push_of_key_eq_nil : ∀ op : Operation, op.key = [] →
    session.step roots (.onBatch number (.push op)) = (.error (.failed .emptyKey), session)
  /-- An operation with a key is taken, and nothing changes but the batch. -/
  push_of_key_ne_nil : ∀ op : Operation, op.key ≠ [] →
    ∃ batches, session.step roots (.onBatch number (.push op)) = (.ok .done, { session with batches })
  /-- A write gives every key that waits the value of the last operation on it. -/
  write : ∀ sync contents, holds session.state contents → ∃ state batches after,
    session.step roots (.onBatch number (.write sync)) = (.ok .done, { session with state, batches }) ∧
      holds state after ∧ ∀ key, after.get? key =
        match Operation.lastFor? key queue with
        | some op => op.result
        | none => contents.get? key
  /-- Closing changes nothing but the batch. -/
  close : ∃ batches,
    session.step roots (.onBatch number .close) = (.ok .done, { session with batches })
  /-- After a write, or after closing, every write is refused and nothing changes. -/
  write_again : ∀ closing : BatchRequest, closing.closes = true → ∀ (later : List Step) (sync : Bool),
    let last := ((session.step roots (.onBatch number closing)).2.run roots later).2
    last.step roots (.onBatch number (.write sync)) = (.error (.failed .batchClosed), last)

/-- A batch that has been written or closed refuses to be written. -/
theorem step_write_of_closes {batch : Batch σ} (h : session.batches[number]? = some batch)
    {closing : BatchRequest} (hclosing : closing.closes = true) (later : List Step) (sync : Bool) :
    let last := ((session.step roots (.onBatch number closing)).2.run roots later).2
    last.step roots (.onBatch number (.write sync)) = (.error (.failed .batchClosed), last) := by
  intro last
  have hclosed := batch.isClosed_send hclosing
  have hafter : (session.step roots (.onBatch number closing)).2.batches[number]? =
      some (batch.send closing).1 := by
    rw [step_onBatch h]
    exact List.getElem?_set_self (List.getElem?_eq_some_iff.1 h).1
  exact step_onBatch_of_isClosed roots (getElem?_batches_run hafter hclosed later) hclosed (.write sync)

theorem Waits.collects {holds : σ → Contents → Prop} (h : session.Waits number apply ops stem)
    (happly : ∀ sync, Yields holds (apply sync ops) (fun _ => ())
      fun contents => ops.foldl Contents.applyTo contents) :
    session.Collects roots holds number ops where
  push_of_key_eq_nil op hkey := h.step_push_of_key_eq_nil hkey
  push_of_key_ne_nil op hkey := by
    obtain ⟨batches, hstep, -⟩ := h.step_push roots hkey
    exact ⟨batches, hstep⟩
  write sync contents hs := by
    obtain ⟨batch, hbatch, hwaits⟩ := h
    obtain ⟨state, hrun, hafter⟩ := happly sync session.state contents hs
    obtain ⟨closed, hsend⟩ := hwaits.send_write sync
    refine ⟨state, session.batches.set number closed, _, ?_, hafter, contents.get?_foldl_applyTo ops⟩
    rw [step_onBatch hbatch, hsend]
    simp only [hrun]
    rfl
  close := by
    obtain ⟨batch, hbatch, hwaits⟩ := h
    obtain ⟨closed, hsend⟩ := hwaits.send_close
    refine ⟨session.batches.set number closed, ?_⟩
    rw [step_onBatch hbatch, hsend]
    rfl
  write_again closing hclosing later sync := by
    obtain ⟨batch, hbatch, -⟩ := h
    exact step_write_of_closes hbatch hclosing later sync

/-- **Batches write the last operation on each key.**  A session on a store in memory, or over an engine
that acts as a sorted map, takes any steps, makes a batch of the store or of a view of any depth, and takes
any steps that do not close the batch.  Then making the batch has changed nothing in the store, and the
batch collects what has been pushed to it, each operation under the stems of the views. -/
theorem batch_writes_last_operations {store : Store σ} {holds : σ → Contents → Prop}
    (hstore : store.Faultless holds) {state : σ} {contents : Contents} (hstate : holds state contents)
    {before steps : List Step}
    (hclose : (∃ n, .onStore n .close ∈ before ++ steps) → Yields holds store.close (fun _ => ()) id)
    {session : Session Unit σ} (hsession : ((ofRoot () state).run (fun _ => store) before).2 = session)
    {n : Nat} {handle : Handle Unit} (hhandle : session.handles[n]? = some handle)
    (hopen : ∀ request, .onBatch session.batches.length request ∈ steps → request.closes = false) :
    let roots := fun _ : Unit => store
    let number := session.batches.length
    let made := session.step roots (.onStore n .batch)
    let reached := (made.2.run roots steps).2
    (∃ batch, made = (.ok (.made number), { session with batches := session.batches ++ [batch] })) ∧
      (∃ contents, holds reached.state contents) ∧
      reached.Collects roots holds number
        ((steps.flatMap (Step.pushedTo number)).map (Operation.under handle.stem)) := by
  intro roots number made reached
  obtain ⟨apply, hnew, happly⟩ := hstore.newBatch_eq
  obtain ⟨batch, hbatch, hwaits⟩ := handle.newBatch_waits roots hnew
  have hmade : made = (.ok (.made number), { session with batches := session.batches ++ [batch] }) := by
    show session.step roots (.onStore n .batch) = _
    rw [step_batch roots hhandle, hbatch]
    rfl
  have hempty : made.2.Waits number apply [] handle.stem := by
    rw [hmade]
    exact ⟨batch, List.getElem?_concat_length, hwaits⟩
  refine ⟨⟨batch, hmade⟩, ?_, (waits_run roots hempty hopen).collects fun sync => happly sync _ ?_⟩
  · -- The steps before, the batch that is made and the steps behind are one run.
    have hall : ((ofRoot () state).run roots (before ++ .onStore n .batch :: steps)).2 = reached := by
      rw [run_append, hsession]
      rfl
    rw [← hall]
    refine exists_holds_run hstore hstate ?_
    rintro ⟨k, hk⟩
    exact hclose ⟨k, by simpa using hk⟩
  · intro op hop
    obtain ⟨pushed, hpushed, rfl⟩ := List.mem_map.1 hop
    obtain ⟨step, -, hstep⟩ := List.mem_flatMap.1 hpushed
    simp [Step.key_ne_nil_of_mem_pushedTo hstep]

/-- A batch of a view of a view on an engine that applies it write by write: two operations on one key, one
without a key, and a write to the store in between. -/
theorem batch_writes_last_operations_scripted :
    let roots := fun _ : Unit => (Scripted.engine false).store
    let before : List Step := [.onStore 0 (.view [1]), .onStore 1 (.view [2])]
    let steps : List Step := [.onBatch 0 (.push (.set [3] [7])), .onBatch 0 (.push (.set [] [6])),
      .onStore 0 (.write true (.set [1, 2, 4] [5])), .onBatch 0 (.push (.set [4] [8])),
      .onBatch 0 (.push (.delete [3])), .onStore 0 .close]
    let session := ((ofRoot () Scripted.empty).run roots before).2
    let reached := ((session.step roots (.onStore 2 .batch)).2.run roots steps).2
    reached.Collects roots Scripted.FaultlessWith 0
      [.set [1, 2, 3] [7], .set [1, 2, 4] [8], .delete [1, 2, 3]] := by
  intro roots before steps session reached
  have hstate : Scripted.empty.FaultlessWith .empty := ⟨rfl, rfl, rfl, rfl⟩
  have hopen : ∀ request, .onBatch 0 request ∈ steps → request.closes = false := by
    intro request hrequest
    simp only [steps, List.mem_cons, Step.onBatch.injEq, true_and, reduceCtorEq, false_or, or_false,
      List.not_mem_nil] at hrequest
    rcases hrequest with rfl | rfl | rfl | rfl <;> rfl
  have hclose : (∃ n, .onStore n .close ∈ before ++ steps) →
      Yields Scripted.FaultlessWith (Scripted.engine false).store.close (fun _ => ()) id :=
    fun _ => Scripted.receive_yields .close
  have hhandle : session.handles[2]? = some (.view [2] (.view [1] (.root ()))) := rfl
  exact (batch_writes_last_operations (.engine (Scripted.actsAs false)) hstate hclose rfl hhandle hopen).2.2

end Session

end OrderedStore
