import OrderedStore.WriteQueue
import OrderedStore.StoreM

/-!
# Batches

Writes that are collected without touching the store and applied together.

* A `queued` batch lets its operations wait in a queue and knows how the store applies them.
* A `view` batch puts the stem of a view before every key and hands the request to the batch of
  the view's source.

A batch that has been written, with whatever outcome, or closed refuses every later operation and
every later write.
-/

namespace OrderedStore

/-- A batch for a store with state `σ`. -/
inductive Batch (σ : Type) where
  | queued (apply : (sync : Bool) → List Operation → StoreM σ Unit) (queue : WriteQueue)
  | view (stem : Bytes) (source : Batch σ)

/-- What can be asked of a batch. -/
inductive BatchRequest where
  /-- Lets an operation wait. -/
  | push (op : Operation)
  /-- Applies the waiting operations in order and closes the batch. -/
  | write (sync : Bool)
  /-- Drops the waiting operations. -/
  | close
  deriving DecidableEq

/-- The request that a view makes of its source's batch; an empty key is refused by the view. -/
def BatchRequest.under (stem : Bytes) : BatchRequest → Except StoreError BatchRequest
  | push op =>
    match requireKey op.key with
    | .error error => .error error
    | .ok () => .ok (push (op.under stem))
  | write sync => .ok (write sync)
  | close => .ok close

namespace Batch

variable {σ : Type}

/-- Answers a request: the batch that is left, and the call that is made on the store. -/
def send : Batch σ → BatchRequest → Batch σ × StoreM σ Unit
  | queued apply queue, .push op =>
    match queue.push op with
    | .error error => (queued apply queue, throw error)
    | .ok queue => (queued apply queue, pure ())
  | queued apply queue, .write sync =>
    match queue.take with
    | .error error => (queued apply queue, throw error)
    | .ok (ops, queue) => (queued apply queue, apply sync ops)
  | queued apply _, .close => (queued apply .closed, pure ())
  | view stem source, request =>
    match request.under stem with
    | .error error => (view stem source, throw error)
    | .ok request =>
      let (source, call) := source.send request
      (view stem source, call)

/-- Pushes the operations one after the other and stops at the first that is refused. -/
def pushAll : Batch σ → List Operation → StoreM σ (Batch σ)
  | batch, [] => pure batch
  | batch, op :: ops => do
    let (batch, call) := batch.send (.push op)
    call
    batch.pushAll ops

end Batch

end OrderedStore
