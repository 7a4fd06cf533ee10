import OrderedStore.Batch

/-!
# Requests to batches

An open batch collects operations.  It is closed by a write, with whatever outcome, and by closing it;
from then on no request changes it or makes a call on the store.

* `Batch.run_pushAll_queued` says that operations with keys are collected in order.
* `Batch.isClosed` says that a batch is closed, and `Batch.refusal` what it then answers.
* `Batch.isClosed_send` says which requests close a batch, `Batch.send_of_isClosed` what a closed batch
  does.
-/

namespace OrderedStore

/-- The requests that close a batch. -/
def BatchRequest.closes : BatchRequest → Bool
  | push _ => false
  | write _ => true
  | close => true

theorem WriteQueue.push_of_key_ne_nil (waiting : List Operation) {op : Operation} (h : op.key ≠ []) :
    push ⟨some waiting⟩ op = .ok ⟨some (waiting ++ [op])⟩ :=
  push_eq_ok_iff.2 ⟨waiting, rfl, h, rfl⟩

namespace Batch

variable {σ : Type}

/-! ### Open batches -/

/-- Operations that have a key wait behind those that wait already. -/
theorem run_pushAll_queued (apply : Bool → List Operation → StoreM σ Unit) (waiting : List Operation)
    {ops : List Operation} (hkeys : ∀ op ∈ ops, op.key ≠ []) (state : σ) :
    ((queued apply ⟨some waiting⟩).pushAll ops).run.run state =
      (.ok (queued apply ⟨some (waiting ++ ops)⟩), state) := by
  induction ops generalizing waiting with
  | nil =>
    rw [List.append_nil]
    rfl
  | cons op ops ih =>
    obtain ⟨hkey, hkeys⟩ := List.forall_mem_cons.1 hkeys
    have hrest := ih (waiting ++ [op]) hkeys
    rw [List.append_assoc, List.singleton_append] at hrest
    rw [pushAll, send, WriteQueue.push_of_key_ne_nil waiting hkey]
    exact hrest

/-- Whatever a batch is asked, its queue holds only operations with keys. -/
theorem send_queued (apply : Bool → List Operation → StoreM σ Unit) {queue : WriteQueue}
    (h : queue.HasKeys) (request : BatchRequest) :
    ∃ after : WriteQueue, after.HasKeys ∧ ((queued apply queue).send request).1 = queued apply after := by
  cases request with
  | push op =>
    rw [send]
    cases hpush : queue.push op with
    | error error => exact ⟨queue, h, rfl⟩
    | ok after => exact ⟨after, h.push hpush, rfl⟩
  | write sync =>
    rw [send]
    cases htake : queue.take with
    | error error => exact ⟨queue, h, rfl⟩
    | ok taken => exact ⟨taken.2, (h.take htake).2, rfl⟩
  | close => exact ⟨.closed, WriteQueue.hasKeys_closed, rfl⟩

/-! ### Closed batches -/

/-- Whether the batch has been written or closed. -/
def isClosed : Batch σ → Bool
  | queued _ queue => queue.isClosed
  | view _ source => source.isClosed

/-- Whether the batch is one of a view. -/
def isView : Batch σ → Bool
  | queued _ _ => false
  | view _ _ => true

/-- The answer of a closed batch.  A view looks at the key before it hands the operation on, so an empty
key is refused as such. -/
def refusal (batch : Batch σ) : BatchRequest → Except StoreError Unit
  | .push op => .error (if batch.isView = true ∧ op.key = [] then .emptyKey else .batchClosed)
  | .write _ => .error .batchClosed
  | .close => .ok ()

theorem isClosed_queued_iff {apply : Bool → List Operation → StoreM σ Unit} {queue : WriteQueue} :
    (queued apply queue).isClosed = true ↔ queue = .closed := by
  obtain ⟨_ | ops⟩ := queue <;> simp [isClosed, WriteQueue.isClosed, WriteQueue.closed]

/-- A batch stays one of a view, or of none. -/
theorem isView_send (batch : Batch σ) (request : BatchRequest) :
    (batch.send request).1.isView = batch.isView := by
  cases batch with
  | queued apply queue =>
    cases request with
    | push op => rw [send]; cases queue.push op <;> rfl
    | write sync => rw [send]; cases queue.take <;> rfl
    | close => rfl
  | view stem source => rw [send]; cases request.under stem <;> rfl

/-- An operation without a key is refused and leaves the batch as it is.  Only a batch that is not one of
a view looks first whether it is closed. -/
theorem send_push_of_key_eq_nil (batch : Batch σ) {op : Operation} (h : op.key = []) :
    batch.send (.push op) =
      (batch, throw (if batch.isView = false ∧ batch.isClosed = true then .batchClosed else .emptyKey)) := by
  cases batch with
  | queued apply queue =>
    obtain ⟨_ | ops⟩ := queue
    · rfl
    · rw [send, WriteQueue.push, h]
      rfl
  | view stem source =>
    rw [send, BatchRequest.under, h]
    rfl

/-- Pushing operations neither closes a batch nor opens it. -/
theorem isClosed_send_push (batch : Batch σ) (op : Operation) :
    (batch.send (.push op)).1.isClosed = batch.isClosed := by
  induction batch generalizing op with
  | queued apply queue =>
    rw [send]
    cases hpush : queue.push op with
    | error error => rfl
    | ok after =>
      obtain ⟨ops, hwaiting, -, rfl⟩ := WriteQueue.push_eq_ok_iff.1 hpush
      rw [isClosed, isClosed, WriteQueue.isClosed, WriteQueue.isClosed, hwaiting]
      rfl
  | view stem source ih =>
    rw [send, BatchRequest.under]
    cases requireKey op.key with
    | error error => rfl
    | ok _ => exact ih (op.under stem)

/-- A write and a close leave a closed batch, whatever comes of them. -/
theorem isClosed_send (batch : Batch σ) {request : BatchRequest} (h : request.closes = true) :
    (batch.send request).1.isClosed = true := by
  induction batch with
  | queued apply queue =>
    cases request with
    | push op => cases h
    | write sync => obtain ⟨_ | ops⟩ := queue <;> rfl
    | close => rfl
  | view stem source ih =>
    cases request with
    | push op => cases h
    | write sync => exact ih
    | close => exact ih

/-- A closed batch stays as it is and makes no call on the store. -/
theorem send_of_isClosed {batch : Batch σ} (h : batch.isClosed = true) (request : BatchRequest) :
    batch.send request = (batch, StoreM.ofExcept (batch.refusal request)) := by
  induction batch generalizing request with
  | queued apply queue =>
    rw [isClosed_queued_iff] at h
    subst h
    cases request <;> rfl
  | view stem source ih =>
    cases request with
    | push op =>
      rw [send, BatchRequest.under, refusal]
      by_cases hkey : op.key = []
      · rw [hkey, requireKey_nil, if_pos ⟨rfl, rfl⟩]
        rfl
      · -- Behind a stem the key is not empty, so the source refuses as a closed batch.
        have hunder : (op.under stem).key ≠ [] := by simp [hkey]
        rw [requireKey_of_ne_nil hkey, if_neg fun hempty => hkey hempty.2]
        show (view stem (source.send _).1, (source.send _).2) = _
        rw [ih h, refusal, if_neg fun hempty => hunder hempty.2]
    | write sync =>
      show (view stem (source.send _).1, (source.send _).2) = _
      rw [ih h]
      rfl
    | close =>
      show (view stem (source.send _).1, (source.send _).2) = _
      rw [ih h]
      rfl

end Batch

end OrderedStore
