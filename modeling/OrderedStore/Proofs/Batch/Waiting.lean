import OrderedStore.Proofs.Batch.Requests
import OrderedStore.Proofs.View.Compose

/-!
# What waits in a batch

The operations of a batch wait below its views, under their stems, and are applied all at once.

* `Batch.Waits` says which operations wait in a batch, and what applies them.
* `Batch.Waits.send_push`, `Batch.Waits.send_write` and `Batch.Waits.send_close` are the requests to it.
-/

namespace OrderedStore.Batch

variable {σ : Type} {apply : Bool → List Operation → StoreM σ Unit} {ops : List Operation}
  {stem : Bytes} {batch : Batch σ}

/-- The batch is open, and its operations wait below views with the stem. -/
inductive Waits (apply : Bool → List Operation → StoreM σ Unit) (ops : List Operation) :
    Bytes → Batch σ → Prop where
  | queued : Waits apply ops [] (queued apply ⟨some ops⟩)
  | view {stem : Bytes} {source : Batch σ} (inner : Bytes) (h : Waits apply ops stem source) :
    Waits apply ops (stem ++ inner) (view inner source)

namespace Waits

theorem isClosed_eq_false (h : Waits apply ops stem batch) : batch.isClosed = false := by
  induction h with
  | queued => rfl
  | view inner h ih => exact ih

/-- An operation with a key waits behind the others, under the stem. -/
theorem send_push (h : Waits apply ops stem batch) {op : Operation} (hkey : op.key ≠ []) :
    ∃ after, batch.send (.push op) = (after, pure ()) ∧
      Waits apply (ops ++ [op.under stem]) stem after := by
  induction h generalizing op with
  | queued =>
    rw [send, WriteQueue.push_of_key_ne_nil ops hkey, Operation.under_nil]
    exact ⟨_, rfl, .queued⟩
  | @view stem source inner h ih =>
    -- Behind the stem of the view the key is not empty either.
    have hrequest : (BatchRequest.push op).under inner = .ok (.push (op.under inner)) := by
      rw [BatchRequest.under, requireKey_of_ne_nil hkey]
    have hunder : (op.under inner).key ≠ [] := by simp [hkey]
    obtain ⟨after, hsend, hafter⟩ := ih hunder
    rw [send_view_of_ok hrequest, hsend, ← Operation.under_under]
    exact ⟨_, rfl, hafter.view inner⟩

/-- A write applies what waits. -/
theorem send_write (h : Waits apply ops stem batch) (sync : Bool) :
    ∃ after, batch.send (.write sync) = (after, apply sync ops) := by
  induction h with
  | queued => exact ⟨_, rfl⟩
  | @view stem source inner h ih =>
    obtain ⟨after, hsend⟩ := ih
    refine ⟨.view inner after, ?_⟩
    rw [send_view_of_ok (show (BatchRequest.write sync).under inner = .ok (.write sync) from rfl), hsend]

/-- Closing makes no call. -/
theorem send_close (h : Waits apply ops stem batch) : ∃ after, batch.send .close = (after, pure ()) := by
  induction h with
  | queued => exact ⟨_, rfl⟩
  | @view stem source inner h ih =>
    obtain ⟨after, hsend⟩ := ih
    refine ⟨.view inner after, ?_⟩
    rw [send_view_of_ok (show BatchRequest.close.under inner = .ok .close from rfl), hsend]

end Waits

end OrderedStore.Batch
