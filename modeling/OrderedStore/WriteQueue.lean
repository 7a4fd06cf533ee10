import OrderedStore.StoreError

/-!
# Operations and the queue in which they wait

A write of one key, and the queue in which the writes of a batch wait.

* `Operation` sets a key to a value or deletes it.
* `WriteQueue` keeps operations in the order in which they were pushed until it is taken or
  closed; from then on it refuses everything.
-/

namespace OrderedStore

/-- A write of one key. -/
inductive Operation where
  | set (key value : Bytes)
  | delete (key : Bytes)
  deriving DecidableEq, Inhabited

namespace Operation

/-- The key that is written. -/
def key : Operation → Bytes
  | set key _ => key
  | delete key => key

/-- The same write with `stem` before its key. -/
def under (stem : Bytes) : Operation → Operation
  | set key value => set (stem ++ key) value
  | delete key => delete (stem ++ key)

@[simp] theorem key_set (key value : Bytes) : (set key value).key = key := rfl

@[simp] theorem key_delete (key : Bytes) : (delete key).key = key := rfl

@[simp] theorem key_under (stem : Bytes) (op : Operation) :
    (op.under stem).key = stem ++ op.key := by
  cases op <;> rfl

end Operation

/-- The operations waiting in a batch; `none` once they have been taken or dropped. -/
structure WriteQueue where
  waiting : Option (List Operation)
  deriving DecidableEq

namespace WriteQueue

/-- An open queue without operations. -/
def empty : WriteQueue := ⟨some []⟩

/-- A queue that refuses everything. -/
def closed : WriteQueue := ⟨none⟩

/-- Whether the queue has been taken or closed. -/
def isClosed (queue : WriteQueue) : Bool := queue.waiting.isNone

/-- The number of waiting operations, none if the queue is closed. -/
def size (queue : WriteQueue) : Nat := (queue.waiting.getD []).length

/-- Whether no operation is waiting. -/
def isEmpty (queue : WriteQueue) : Bool := queue.size == 0

/-- Adds an operation at the end.  A closed queue refuses before the key is looked at. -/
def push (queue : WriteQueue) (op : Operation) : Except StoreError WriteQueue :=
  match queue.waiting with
  | none => .error .batchClosed
  | some ops =>
    match requireKey op.key with
    | .error error => .error error
    | .ok () => .ok ⟨some (ops ++ [op])⟩

/-- Hands out the waiting operations and leaves a closed queue. -/
def take (queue : WriteQueue) : Except StoreError (List Operation × WriteQueue) :=
  match queue.waiting with
  | none => .error .batchClosed
  | some ops => .ok (ops, closed)

@[simp] theorem push_closed (op : Operation) : closed.push op = .error .batchClosed := rfl

@[simp] theorem take_closed : closed.take = .error .batchClosed := rfl

/-- An open queue takes every operation that has a key. -/
theorem push_eq_ok_iff {queue after : WriteQueue} {op : Operation} :
    queue.push op = .ok after ↔
      ∃ ops, queue.waiting = some ops ∧ op.key ≠ [] ∧ after = ⟨some (ops ++ [op])⟩ := by
  rw [push]
  cases queue.waiting with
  | none => simp
  | some ops =>
    by_cases hkey : op.key = []
    · simp [hkey]
    · simp [requireKey_of_ne_nil hkey, hkey, eq_comm]

theorem take_eq_ok_iff {queue after : WriteQueue} {ops : List Operation} :
    queue.take = .ok (ops, after) ↔ queue.waiting = some ops ∧ after = closed := by
  rw [take]
  cases queue.waiting with
  | none => simp
  | some waiting => simp [eq_comm]

/-! ### Keys of waiting operations -/

/-- No operation with an empty key is waiting. -/
def HasKeys (queue : WriteQueue) : Prop :=
  ∀ ops, queue.waiting = some ops → ∀ op ∈ ops, op.key ≠ []

theorem hasKeys_empty : empty.HasKeys := by
  rintro ops ⟨⟩ op hop
  cases hop

theorem hasKeys_closed : closed.HasKeys := by
  rintro ops ⟨⟩

theorem HasKeys.push {queue after : WriteQueue} (h : queue.HasKeys) {op : Operation}
    (hpush : queue.push op = .ok after) : after.HasKeys := by
  obtain ⟨ops, hwaiting, hkey, rfl⟩ := push_eq_ok_iff.1 hpush
  rintro _ ⟨⟩ op' hop'
  rcases List.mem_append.1 hop' with hold | hnew
  · exact h ops hwaiting op' hold
  · rw [List.mem_singleton.1 hnew]
    exact hkey

theorem HasKeys.take {queue after : WriteQueue} (h : queue.HasKeys) {ops : List Operation}
    (htake : queue.take = .ok (ops, after)) : (∀ op ∈ ops, op.key ≠ []) ∧ after.HasKeys := by
  obtain ⟨hwaiting, rfl⟩ := take_eq_ok_iff.1 htake
  exact ⟨h ops hwaiting, hasKeys_closed⟩

end WriteQueue

end OrderedStore
