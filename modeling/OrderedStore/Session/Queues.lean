import OrderedStore.WriteQueue

/-!
# Sessions on an operation queue

Steps on one operation queue, which starts open and empty.
-/

namespace OrderedStore

/-- What can be asked of a queue. -/
inductive QueueRequest where
  | push (op : Operation)
  | take
  | close
  | inspect
  deriving DecidableEq

/-- What a queue answers. -/
inductive QueueAnswer where
  | done
  | operations (ops : List Operation)
  | state (size : Nat) (isEmpty isClosed : Bool)
  deriving DecidableEq

namespace WriteQueue

/-- The queue after a request, and its answer.  A refused request leaves the queue as it is. -/
def answer (queue : WriteQueue) : QueueRequest → WriteQueue × Except StoreError QueueAnswer
  | .push op =>
    match queue.push op with
    | .error error => (queue, .error error)
    | .ok queue => (queue, .ok .done)
  | .take =>
    match queue.take with
    | .error error => (queue, .error error)
    | .ok (ops, queue) => (queue, .ok (.operations ops))
  | .close => (closed, .ok .done)
  | .inspect => (queue, .ok (.state queue.size queue.isEmpty queue.isClosed))

/-- The answers of requests in turn. -/
def answers (queue : WriteQueue) : List QueueRequest → List (Except StoreError QueueAnswer)
  | [] => []
  | request :: rest =>
    let (queue, answer) := queue.answer request
    answer :: queue.answers rest

end WriteQueue

end OrderedStore
