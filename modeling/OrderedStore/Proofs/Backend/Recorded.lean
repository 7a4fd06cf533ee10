import OrderedStore.Engine.Scripted
import OrderedStore.Proofs.Backend.Engine
import OrderedStore.Proofs.Store.Recorded

/-!
# Engines whose calls are recorded

The calls that an engine receives are put down in a list beside its state.  That changes nothing in what
the engine does.

* `Engine.recorded` is the engine with its record.
* `Engine.recorded_store_alike` compares the stores over the engine with and without the record.
* `Engine.run_recorded_write` says what a write leaves in the record.
-/

namespace OrderedStore

open StoreM

variable {σ : Type}

namespace Engine

variable {engine : Engine σ}

/-- The engine with a list of the calls that it has received, the latest last. -/
def recorded (engine : Engine σ) : Engine (σ × List EngineCall) where
  atomic := engine.atomic
  get key := (engine.get key).marked (.get key)
  write sync op := (engine.write sync op).marked (.write sync op)
  cursor direction bounds := (engine.cursor direction bounds).marked (.cursor direction bounds)
  applyAll sync ops := (engine.applyAll sync ops).marked (.applyAll sync ops)
  stats state := engine.stats state.1
  close := engine.close.marked .close

theorem recorded_write_agree (sync : Bool) (op : Operation) :
    CallsAgree (fun recorded state => recorded.1 = state) Eq (engine.recorded.points.write sync op)
      (engine.points.write sync op) :=
  .bind (.ofExcept _) fun _ _ _ => marked_agree _ _ fun _ => rfl

/-- Batches are applied alike, as one or as transactions. -/
theorem recorded_applyBatch_agree (sync : Bool) (ops : List Operation) :
    CallsAgree (fun recorded state => recorded.1 = state) Eq (engine.recorded.applyBatch sync ops)
      (engine.applyBatch sync ops) :=
  applyBatch_agree (show engine.recorded.atomic = engine.atomic from rfl) sync
    (fun _ => marked_agree _ _ fun _ => rfl) fun sync op _ => recorded_write_agree sync op

/-- A batch comes to the same with and without the record. -/
theorem run_applyBatch_of_recorded {sync : Bool} {ops : List Operation} {state after : σ}
    {calls calls' : List EngineCall} {outcome : Except StoreError Unit}
    (h : (engine.recorded.applyBatch sync ops).run.run (state, calls) = (outcome, (after, calls'))) :
    (engine.applyBatch sync ops).run.run state = (outcome, after) := by
  obtain ⟨hanswer, hstate⟩ := recorded_applyBatch_agree sync ops (state, calls) state rfl
  rw [h] at hanswer hstate
  exact Prod.ext (sameOutcome_eq_iff.1 hanswer).symm hstate.symm

/-- The store over an engine cannot be told apart from the one over the engine with its record. -/
theorem recorded_store_alike :
    engine.recorded.store.Alike (fun recorded state => recorded.1 = state) engine.store where
  get key := .bind (.ofExcept _) fun _ _ _ => marked_agree _ _ fun _ => rfl
  has key := by
    refine .bind (.ofExcept _) fun _ _ _ => .bind (marked_agree _ _ fun _ => rfl) ?_
    rintro value _ rfl
    exact .pure rfl
  write := recorded_write_agree
  iterator direction bounds := by
    refine .bind (.ofExcept _) fun _ _ _ => .bind (marked_agree _ _ fun _ => rfl) ?_
    rintro items _ rfl
    exact .pure (Iterator.Alike.refl _)
  newBatch := .pure <| Batch.alike_queued (fun sync ops _ => recorded_applyBatch_agree sync ops)
    WriteQueue.hasKeys_empty

/-- A write of a key is recorded behind the calls before it. -/
theorem run_recorded_write (op : Operation) (hkey : op.key ≠ []) {sync : Bool} {state after : σ}
    {outcome : Except StoreError Unit}
    (h : (engine.write sync op).run.run state = (outcome, after)) (calls : List EngineCall) :
    (engine.recorded.points.write sync op).run.run (state, calls) =
      (outcome, (after, calls ++ [.write sync op])) := by
  rw [points_write_of_ne_nil hkey]
  exact run_marked _ h calls

end Engine

end OrderedStore
