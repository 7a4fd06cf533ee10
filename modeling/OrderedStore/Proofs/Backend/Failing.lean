import OrderedStore.Proofs.Backend.Faultless
import OrderedStore.Proofs.Backend.Recorded
import OrderedStore.Proofs.Batch.Requests
import OrderedStore.Proofs.Contents
import OrderedStore.Proofs.Transaction.Run
import OrderedStore.Script

/-!
# Batches on engines whose writes fail

An engine that does not apply batches as one may fail at any write of a batch, and again at any of the
deletions that undo it.

* `Engine.FailsAt` says at which keys writes fail.
* `Engine.FailsAt.run_writes` and `Engine.FailsAt.run_erases` follow the writes of a batch and the
  deletions that undo it.
* `Engine.FailsAt.batch_write` describes the write of a batch.
-/

namespace OrderedStore

open StoreM

variable {σ α : Type} {holds : σ → Contents → Prop}

/-- The place where a fault makes the write of a key fail. -/
def Operation.place : Operation → FaultPlace
  | set key _ => .put key
  | delete key => .remove key

theorem EngineCall.place_write (sync : Bool) (op : Operation) :
    (EngineCall.write sync op).place = op.place := by
  cases op <;> rfl

namespace Engine

/-- A write fails if its place has a fault, and then changes nothing; otherwise it acts as on sorted
contents. -/
structure FailsAt (engine : Engine σ) (fault : FaultPlace → Option StoreError)
    (holds : σ → Contents → Prop) : Prop where
  write_of_eq_none : ∀ sync op, fault op.place = none →
    StoreM.Yields holds (engine.write sync op) (fun _ => ()) fun contents => contents.applyTo op
  write_of_eq_some : ∀ sync op error, fault op.place = some error →
    ∀ state contents, holds state contents →
      ∃ after, (engine.write sync op).run.run state = (.error error, after) ∧ holds after contents

variable {engine : Engine σ} {fault : FaultPlace → Option StoreError} {state after : σ}
  {contents : Contents} {ops : List Operation}

namespace FailsAt

/-- Writes without faults are all made, in order. -/
theorem run_writes (h : engine.FailsAt fault holds) (sync : Bool)
    (hkeys : ∀ op ∈ ops, op.key ≠ []) (hfault : ∀ op ∈ ops, fault op.place = none)
    (hs : holds state contents) (calls : List EngineCall) :
    ∃ after, (ops.forM fun op => engine.recorded.points.write sync op).run.run (state, calls) =
        (.ok (), (after, calls ++ ops.map (.write sync))) ∧
      holds after (ops.foldl Contents.applyTo contents) := by
  induction ops generalizing state contents calls with
  | nil => exact ⟨state, by rw [List.map_nil, List.append_nil]; rfl, hs⟩
  | cons op ops ih =>
    obtain ⟨hkey, hkeys⟩ := List.forall_mem_cons.1 hkeys
    obtain ⟨hop, hfault⟩ := List.forall_mem_cons.1 hfault
    obtain ⟨between, hrun, hbetween⟩ := h.write_of_eq_none sync op hop state contents hs
    obtain ⟨after, hrest, hafter⟩ := ih hkeys hfault hbetween (calls ++ [.write sync op])
    have hfirst := run_recorded_write op hkey hrun calls
    refine ⟨after, (run_bind_of_ok hfirst).trans (hrest.trans ?_), hafter⟩
    rw [List.map_cons, List.append_assoc, List.singleton_append]

/-- A deletion succeeds or fails, and removes its key if there is no fault. -/
theorem run_erase (h : engine.FailsAt fault holds) (key : Bytes) (hs : holds state contents) :
    ∃ outcome after contents', (engine.write false (.delete key)).run.run state = (outcome, after) ∧
      holds after contents' ∧
        (fault (.remove key) = none → outcome = .ok () ∧ contents' = contents.erase key) := by
  cases hfault : fault (.remove key) with
  | none =>
    obtain ⟨after, hrun, hafter⟩ := h.write_of_eq_none false (.delete key) hfault state contents hs
    exact ⟨_, after, _, hrun, hafter, fun _ => ⟨rfl, rfl⟩⟩
  | some error =>
    obtain ⟨after, hrun, hafter⟩ :=
      h.write_of_eq_some false (.delete key) error hfault state contents hs
    exact ⟨_, after, _, hrun, hafter, fun hnone => by cases hnone⟩

/-- Deletions are all attempted, in order; without faults they remove their keys. -/
theorem run_erases (h : engine.FailsAt fault holds) {keys : List Bytes} (hkeys : ∀ key ∈ keys, key ≠ [])
    (hs : holds state contents) (calls : List EngineCall) :
    ∃ deletions after,
      (attemptAll (fun key => engine.recorded.points.write false (.delete key)) keys).run
          (state, calls) =
        (deletions, (after, calls ++ keys.map fun key => .write false (.delete key))) ∧
      ((∀ key ∈ keys, fault (.remove key) = none) →
        (∀ deletion ∈ deletions, deletion.2 = .ok ()) ∧ holds after (contents.without keys)) := by
  induction keys generalizing state contents calls with
  | nil => exact ⟨[], state, by simp, fun _ => ⟨by simp, hs⟩⟩
  | cons key keys ih =>
    obtain ⟨hkey, hkeys⟩ := List.forall_mem_cons.1 hkeys
    obtain ⟨outcome, between, contents', hrun, hbetween, hnone⟩ := h.run_erase key hs
    obtain ⟨deletions, after, hrest, hall⟩ := ih hkeys hbetween (calls ++ [.write false (.delete key)])
    have hfirst : (engine.recorded.points.write false (.delete key)).run.run (state, calls) =
        (outcome, (between, calls ++ [.write false (.delete key)])) :=
      run_recorded_write (.delete key) hkey hrun calls
    refine ⟨(key, outcome) :: deletions, after, ?_, fun hfault => ?_⟩
    · rw [run_attemptAll_cons (fun key => engine.recorded.points.write false (.delete key)) hfirst,
        hrest, List.map_cons, List.append_assoc, List.singleton_append]
    · obtain ⟨hkey, hfault⟩ := List.forall_mem_cons.1 hfault
      obtain ⟨rfl, rfl⟩ := hnone hkey
      obtain ⟨hdeletions, hafter⟩ := hall hfault
      exact ⟨List.forall_mem_cons.2 ⟨rfl, hdeletions⟩, hafter⟩

end FailsAt

/-! ### Batches that are written as transactions -/

/-- The step that makes a write of a batch. -/
def writeStep (sync : Bool) (op : Operation) : TransactionStep (Points σ) σ :=
  ⟨op.key, fun points => points.write sync op⟩

theorem steps_transactionOf (sync : Bool) (ops : List Operation) :
    (transactionOf sync ops : Transaction (Points σ) σ).steps = ops.map (writeStep sync) := rfl

theorem steps_transactionOf_append (sync : Bool) (before rest : List Operation) (op : Operation) :
    (transactionOf sync (before ++ op :: rest) : Transaction (Points σ) σ).steps =
      before.map (writeStep sync) ++ writeStep sync op :: rest.map (writeStep sync) := by
  rw [steps_transactionOf, List.map_append, List.map_cons]

theorem map_key_writeStep (sync : Bool) (ops : List Operation) :
    (ops.map (writeStep sync : Operation → TransactionStep (Points σ) σ)).map TransactionStep.key =
      ops.map Operation.key := by
  rw [List.map_map]
  rfl

theorem forM_writeStep (sync : Bool) (ops : List Operation) (points : Points σ) :
    ((ops.map (writeStep sync)).forM fun step => step.run points) =
      ops.forM fun op => points.write sync op := by
  simp only [List.forM_eq_forM, List.forM_map, writeStep]

theorem run_applyBatch_of_not_atomic (engine : Engine σ) (hatomic : engine.atomic = false) {sync : Bool}
    {outcome : Except StoreError Unit} {tx : Transaction (Points σ) σ}
    (h : ((transactionOf sync ops).runOn engine.points fun key =>
      engine.points.write false (.delete key)).run state = ((outcome, tx), after)) :
    (engine.applyBatch sync ops).run.run state = (outcome, after) := by
  rw [applyBatch, if_neg (by simp [hatomic]), run_bind_ofState, h]
  rfl

/-- Operations that have keys are collected without a call. -/
theorem run_pushAll_newBatch (engine : Engine σ) (hkeys : ∀ op ∈ ops, op.key ≠ []) (state : σ) :
    (ofState engine.store.newBatch >>= fun new => new.pushAll ops).run.run state =
      (.ok (.queued engine.applyBatch ⟨some ops⟩), state) :=
  Batch.run_pushAll_queued engine.applyBatch [] hkeys state

theorem run_writeBatch (engine : Engine σ) (hkeys : ∀ op ∈ ops, op.key ≠ []) {sync : Bool} {state : σ} :
    (engine.store.writeBatch sync ops).run.run state = (engine.applyBatch sync ops).run.run state := by
  have hpush := run_pushAll_newBatch engine hkeys state
  rw [run_bind_ofState] at hpush
  rw [Store.writeBatch, run_bind_ofState, run_bind_of_ok hpush]
  rfl

namespace FailsAt

/-- Without faults all operations are written, in order. -/
theorem run_applyBatch_of_succeeds (h : engine.FailsAt fault holds) (hatomic : engine.atomic = false)
    (sync : Bool) (calls : List EngineCall) (hkeys : ∀ op ∈ ops, op.key ≠ [])
    (hfault : ∀ op ∈ ops, fault op.place = none) (hs : holds state contents) :
    ∃ after, (engine.recorded.applyBatch sync ops).run.run (state, calls) =
        (.ok (), (after, calls ++ ops.map (.write sync))) ∧
      holds after (ops.foldl Contents.applyTo contents) := by
  obtain ⟨after, hrun, hafter⟩ := h.run_writes sync hkeys hfault hs calls
  rw [← forM_writeStep, ← steps_transactionOf] at hrun
  exact ⟨after, run_applyBatch_of_not_atomic engine.recorded hatomic
    (Transaction.runOn_of_succeeds _ rfl hrun), hafter⟩

/-- The first operation with a fault is the last one that is tried.  The keys of those before it are
deleted, the latest first, whatever becomes of the deletions. -/
theorem run_applyBatch_of_fails (h : engine.FailsAt fault holds) (hatomic : engine.atomic = false)
    (sync : Bool) (calls : List EngineCall) {before rest : List Operation} {op : Operation}
    {error : StoreError}
    (hkeys : ∀ op' ∈ before ++ op :: rest, op'.key ≠ [])
    (hbefore : ∀ op' ∈ before, fault op'.place = none) (hop : fault op.place = some error)
    (hs : holds state contents) :
    ∃ outcome after, (engine.recorded.applyBatch sync (before ++ op :: rest)).run.run (state, calls) =
        (outcome, (after, calls ++ (before ++ [op]).map (.write sync) ++
          (before.map Operation.key).reverse.map fun key => .write false (.delete key))) ∧
      ((∀ op' ∈ before, fault (.remove op'.key) = none) →
        outcome = .error (.rolledBack before.length error) ∧
          holds after (contents.without (before.map Operation.key))) := by
  have hbeforeKeys : ∀ op' ∈ before, op'.key ≠ [] := fun op' hop' =>
    hkeys op' (List.mem_append_left _ hop')
  obtain ⟨between, hwrites, hbetween⟩ := h.run_writes sync hbeforeKeys hbefore hs calls
  obtain ⟨failed, hwrite, hfailed⟩ := h.write_of_eq_some sync op error hop between _ hbetween
  have hfails := run_recorded_write op (hkeys op (by simp)) hwrite (calls ++ before.map (.write sync))
  -- What is erased are the keys of the operations before, the latest first.
  have hof : ∀ P : Bytes → Prop, (∀ op' ∈ before, P op'.key) →
      ∀ key ∈ (before.map Operation.key).reverse, P key := fun P hP key hkey =>
    List.forall_mem_map.2 hP key (List.mem_reverse.1 hkey)
  obtain ⟨deletions, after, herases, hall⟩ := h.run_erases (hof _ hbeforeKeys) hfailed
    (calls ++ before.map (.write sync) ++ [.write sync op])
  rw [← forM_writeStep] at hwrites
  have hrun := Transaction.runOn_of_fails (fun key => engine.recorded.points.write false (.delete key))
    (show (transactionOf sync (before ++ op :: rest)).state = .pending from rfl)
    (steps_transactionOf_append sync before rest op) hwrites hfails
  simp only [map_key_writeStep, List.length_map, herases] at hrun
  refine ⟨.error (Transaction.undoError before.length error deletions), after,
    (run_applyBatch_of_not_atomic engine.recorded hatomic hrun).trans ?_, fun hnone => ?_⟩
  · rw [List.map_append, List.map_singleton, ← List.append_assoc]
  · obtain ⟨hdeletions, hafter⟩ := hall (hof _ hnone)
    rw [Contents.without_foldl_applyTo] at hafter
    exact ⟨congrArg _ ((Transaction.isUndoError_undoError _ _ _).rolledBack_iff.2 hdeletions), hafter⟩

/-- **The write of a batch on an engine that does not apply batches as one.**  Operations that have keys
are collected without a call.  The write closes the batch.  If `op` is the first operation with a fault,
the engine receives the operations up to it, in order and with the flag of the write, and then the
deletions of the keys before it, the latest first.  If these have no faults, the write reports the
failure of `op` and the keys are gone, which restores the contents just when none of them was there.
If no operation has a fault, all are applied in order. -/
theorem batch_write (h : engine.FailsAt fault holds) (hatomic : engine.atomic = false)
    (hs : holds state contents) (hkeys : ∀ op ∈ ops, op.key ≠ []) (sync : Bool) :
    ∃ batch, (ofState engine.store.newBatch >>= fun new => new.pushAll ops).run.run state =
        (.ok batch, state) ∧
      let (written, write) := batch.send (.write sync)
      written.isClosed = true ∧
      ∃ outcome after calls, write.run.run state = (outcome, after) ∧
        (engine.recorded.store.writeBatch sync ops).run.run (state, []) = (outcome, (after, calls)) ∧
        (∀ before op rest error, ops = before ++ op :: rest →
          (∀ op' ∈ before, fault op'.place = none) → fault op.place = some error →
            calls = (before ++ [op]).map (.write sync) ++
              (before.map Operation.key).reverse.map (fun key => .write false (.delete key)) ∧
            ((∀ op' ∈ before, fault (.remove op'.key) = none) →
              outcome = .error (.rolledBack before.length error) ∧
                holds after (contents.without (before.map Operation.key)) ∧
                (contents.without (before.map Operation.key) = contents ↔
                  ∀ key ∈ before.map Operation.key, contents.get? key = none))) ∧
        ((∀ op ∈ ops, fault op.place = none) →
          outcome = .ok () ∧ calls = ops.map (.write sync) ∧
            holds after (ops.foldl Contents.applyTo contents)) := by
  refine ⟨_, run_pushAll_newBatch engine hkeys state, rfl, ?_⟩
  show ∃ outcome after calls, (engine.applyBatch sync ops).run.run state = _ ∧ _
  rw [run_writeBatch engine.recorded hkeys]
  rcases hrun : (engine.recorded.applyBatch sync ops).run.run (state, []) with ⟨outcome, after, calls⟩
  have hplain := run_applyBatch_of_recorded hrun
  refine ⟨outcome, after, calls, hplain, rfl, ?_, ?_⟩
  · rintro before op rest error rfl hbefore hop
    obtain ⟨outcome', after', hfails, hnone⟩ :=
      h.run_applyBatch_of_fails hatomic sync [] hkeys hbefore hop hs
    cases hrun.symm.trans hfails
    refine ⟨rfl, fun herases => ?_⟩
    obtain ⟨houtcome, hafter⟩ := hnone herases
    exact ⟨houtcome, hafter, Contents.without_eq_self_iff⟩
  · intro hfault
    obtain ⟨after', hsucceeds, hafter⟩ :=
      h.run_applyBatch_of_succeeds hatomic sync [] hkeys hfault hs
    cases hrun.symm.trans hsucceeds
    exact ⟨rfl, rfl, hafter⟩

end FailsAt

end Engine

/-! ### Scripted faults -/

namespace Scripted

/-- The state has contents and these faults. -/
def FaultyWith (fault : FaultPlace → Option StoreError) (state : Scripted)
    (contents : Contents) : Prop :=
  state.contents = contents ∧ ∀ place, (state.fault? place).map .backend = fault place

/-- Writes of the scripted engine fail where faults have been placed. -/
theorem failsAt (atomic : Bool) (fault : FaultPlace → Option StoreError) :
    (engine atomic).FailsAt fault (FaultyWith fault) where
  write_of_eq_none sync op hop := by
    rintro state contents ⟨rfl, hfault⟩
    have hnone : state.fault? (EngineCall.write sync op).place = none := by
      rw [EngineCall.place_write, ← Option.map_eq_none_iff, hfault, hop]
    exact ⟨_, run_bind_of_ok (run_receive_of_eq_none hnone), rfl, hfault⟩
  write_of_eq_some sync op error hop := by
    rintro state contents ⟨rfl, hfault⟩
    obtain ⟨text, htext, rfl⟩ := Option.map_eq_some_iff.1 ((hfault op.place).trans hop)
    rw [← EngineCall.place_write sync] at htext
    exact ⟨_, run_bind_of_error (run_receive_of_eq_some htext), rfl, hfault⟩

end Scripted

/-- A batch that writes a key twice fails at its fourth operation.  The key was there before, and is gone
afterwards, so the contents are not restored. -/
theorem Engine.FailsAt.batch_write_repeated_key :
    let contents : Contents := .ofList [⟨[1], [9]⟩]
    let state : Scripted := { Scripted.empty with contents, faults := [(.put [3], "full")] }
    let ops : List Operation :=
      [.set [1] [5], .set [2] [6], .delete [1], .set [3] [7], .set [4] [8]]
    ∃ after calls, ((Scripted.engine false).recorded.store.writeBatch true ops).run.run (state, []) =
        (.error (.rolledBack 3 (.backend "full")), (after, calls)) ∧
      calls = [.write true (.set [1] [5]), .write true (.set [2] [6]), .write true (.delete [1]),
        .write true (.set [3] [7]), .write false (.delete [1]), .write false (.delete [2]),
        .write false (.delete [1])] ∧
      after.contents = contents.without [[1], [2], [1]] ∧ after.contents ≠ contents := by
  intro contents state ops
  obtain ⟨_, -, -, outcome, after, calls, -, hwrite, hfails, -⟩ :=
    (Scripted.failsAt false fun place => (state.fault? place).map .backend).batch_write rfl
      (show Scripted.FaultyWith _ state contents from ⟨rfl, fun _ => rfl⟩)
      (show ∀ op ∈ ops, op.key ≠ [] by decide) true
  obtain ⟨hcalls, hnone⟩ := hfails [.set [1] [5], .set [2] [6], .delete [1]] (.set [3] [7])
    [.set [4] [8]] (.backend "full") rfl (by decide) rfl
  obtain ⟨rfl, ⟨hafter, -⟩, hrestored⟩ := hnone (by decide)
  refine ⟨after, calls, hwrite, hcalls, hafter, fun hsame => ?_⟩
  have habsent := hrestored.1 (hafter.symm.trans hsame) [1] (by decide)
  exact absurd habsent (by decide)

end OrderedStore
