import OrderedStore.Store

/-!
# Scripts

What a step of a transaction does with the store it is handed, as data: a script makes calls, goes
on depending on their answers, and ends with an outcome.

A script holds no iterator and no batch while it makes other calls.  Iterators show their store as it was when
they were made, so one that is held shows what a scan answers at that time; operations wait in their batch, so
one that is held is as good as one that is filled and written at once.

* `Script.run` carries a script out on any store.
* `Script.ofWrite`, `Script.ofGet`, `Script.ofBatch` and `Script.ofSteps` make one call and end
  with its outcome; `Script.andThen` joins two scripts up to the first failure.
-/

namespace OrderedStore

mutual

/-- A sequence of calls on a store, each chosen by the answers before it. -/
inductive Script where
  /-- Ends with an outcome. -/
  | finish (outcome : Except StoreError Unit)
  /-- Reads a key. -/
  | get (key : Bytes) (next : Except StoreError (Option Bytes) → Script)
  /-- Asks whether a key is present. -/
  | has (key : Bytes) (next : Except StoreError Bool → Script)
  /-- Writes a key. -/
  | write (sync : Bool) (op : Operation) (next : Except StoreError Unit → Script)
  /-- Walks a range to its end. -/
  | scan (direction : Direction) (bounds : Bounds)
      (next : Except StoreError (List Entry × Option StoreError) → Script)
  /-- Pushes operations to a new batch, up to the first that is refused, and writes it. -/
  | batch (sync : Bool) (ops : List Operation) (next : Except StoreError Unit → Script)
  /-- Runs a new transaction. -/
  | transaction (steps : ScriptSteps) (next : Except StoreError Unit → Script)

/-- The steps of a transaction that a script runs. -/
inductive ScriptSteps where
  | nil
  | cons (key : Bytes) (script : Script) (rest : ScriptSteps)

end

namespace Store

variable {σ : Type}

/-- Walks a range to its end: its entries, and the error that ended the walk if one did. -/
def scan (store : Store σ) (direction : Direction) (bounds : Bounds) :
    StoreM σ (List Entry × Option StoreError) := do
  let (entries, it) := (← store.iterator direction bounds).drainAll
  return (entries, it.error?)

/-- Pushes operations to a new batch, up to the first that is refused, and writes it. -/
def writeBatch (store : Store σ) (sync : Bool) (ops : List Operation) : StoreM σ Unit := do
  let batch ← (← .ofState store.newBatch).pushAll ops
  (batch.send (.write sync)).2

end Store

variable {σ : Type}

mutual

/-- Carries a script out on a store. -/
def Script.run : Script → Store σ → StoreM σ Unit
  | .finish outcome, _ => .ofExcept outcome
  | .get key next, store => do (next (← .ofState (store.get key).attempt)).run store
  | .has key next, store => do (next (← .ofState (store.has key).attempt)).run store
  | .write sync op next, store => do (next (← .ofState (store.write sync op).attempt)).run store
  | .scan direction bounds next, store => do
    (next (← .ofState (store.scan direction bounds).attempt)).run store
  | .batch sync ops next, store => do
    (next (← .ofState (store.writeBatch sync ops).attempt)).run store
  | .transaction steps next, store => do
    let (outcome, _) ← .ofState (store.runTransaction (.ofSteps steps.toList))
    (next outcome).run store

/-- The steps as calls on the store that they are handed. -/
def ScriptSteps.toList : ScriptSteps → List (TransactionStep (Store σ) σ)
  | .nil => []
  | .cons key script rest => ⟨key, fun store => script.run store⟩ :: rest.toList

end

namespace Script

/-! ### Scripts of one call -/

/-- Writes a key. -/
def ofWrite (sync : Bool) (op : Operation) : Script := write sync op finish

/-- Reads a key and drops its value. -/
def ofGet (key : Bytes) : Script := get key fun answer => finish (answer.map fun _ => ())

/-- Writes a batch. -/
def ofBatch (sync : Bool) (ops : List Operation) : Script := batch sync ops finish

/-- Runs a transaction. -/
def ofSteps (steps : ScriptSteps) : Script := transaction steps finish

/-- The second script follows if the first one ends well. -/
def andThen (first second : Script) : Script :=
  match first with
  | finish (.ok ()) => second
  | finish (.error error) => finish (.error error)
  | get key next => get key fun answer => (next answer).andThen second
  | has key next => has key fun answer => (next answer).andThen second
  | write sync op next => write sync op fun answer => (next answer).andThen second
  | scan direction bounds next => scan direction bounds fun answer => (next answer).andThen second
  | batch sync ops next => batch sync ops fun answer => (next answer).andThen second
  | transaction steps next => transaction steps fun answer => (next answer).andThen second

/-- The scripts in turn, up to the first that fails. -/
def sequence : List Script → Script
  | [] => finish (.ok ())
  | script :: scripts => script.andThen (sequence scripts)

end Script

/-- The steps of the given keys and scripts. -/
def ScriptSteps.ofList : List (Bytes × Script) → ScriptSteps
  | [] => .nil
  | (key, script) :: rest => .cons key script (ofList rest)

end OrderedStore
