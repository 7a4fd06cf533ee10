import OrderedStore.WriteQueue
import OrderedStore.StoreM

/-!
# Transactions

A transaction runs a list of steps on a store, one after the other.  If a step fails, the keys of
the steps before it are deleted, the latest first, and the transaction reports the failure.  It
runs once: later attempts are refused.

A step is any call on the store it is handed, together with the key that is deleted when the step
has to be undone.  `δ` is what is handed to the steps, `σ` the state of the store.

Steps are assumed to come back, with success or with an error.  A step that aborts by a panic is
outside this description: the steps have left the transaction by then and its state is still
`pending`, so nothing is undone, and a later run would commit no step at all instead of being
refused.  That a transaction runs at most once rests on this assumption.
-/

namespace OrderedStore

/-- How far a transaction has come. -/
inductive TransactionState where
  | pending
  | committed
  | rolledBack
  deriving DecidableEq

/-- A call with the key that is deleted to undo it.  The call always comes back, with success or with
an error: a step that panics is not described. -/
structure TransactionStep (δ σ : Type) where
  key : Bytes
  run : δ → StoreM σ Unit

namespace TransactionStep

variable {δ σ : Type}

/-- Runs steps in order until one fails.  Answers the keys of the steps that succeeded, the latest
first and before the keys `applied`, and the error that stopped the run. -/
def runAll (target : δ) :
    List (TransactionStep δ σ) → List Bytes → StateM σ (List Bytes × Option StoreError)
  | [], applied => pure (applied, none)
  | step :: steps, applied => do
    match ← (step.run target).attempt with
    | .ok () => runAll target steps (step.key :: applied)
    | .error error => pure (applied, some error)

theorem runAll_cons_of_ok {target : δ} {step : TransactionStep δ σ} {state after : σ}
    (h : (step.run target).run.run state = (.ok (), after)) (steps : List (TransactionStep δ σ))
    (applied : List Bytes) :
    (runAll target (step :: steps) applied).run state =
      (runAll target steps (step.key :: applied)).run after := by
  have hattempt : (step.run target).attempt.run state = (.ok (), after) := h
  rw [runAll, StoreM.run_bind_of_run_eq hattempt]

end TransactionStep

/-- Steps that are to be run together. -/
structure Transaction (δ σ : Type) where
  steps : List (TransactionStep δ σ)
  state : TransactionState

namespace Transaction

variable {δ σ : Type}

/-- A pending transaction without steps. -/
def empty : Transaction δ σ := ⟨[], .pending⟩

/-- A pending transaction of the given steps. -/
def ofSteps (steps : List (TransactionStep δ σ)) : Transaction δ σ := ⟨steps, .pending⟩

/-- The number of steps that wait. -/
def size (tx : Transaction δ σ) : Nat := tx.steps.length

/-- Whether no step waits. -/
def isEmpty (tx : Transaction δ σ) : Bool := tx.size == 0

/-- Adds a step at the end. -/
def append (tx : Transaction δ σ) (step : TransactionStep δ σ) : Transaction δ σ :=
  { tx with steps := tx.steps ++ [step] }

/-- Deletes the keys in the given order, past deletions that fail.  Answers the first key whose
deletion failed, with the error. -/
def eraseAll (erase : Bytes → StoreM σ Unit) :
    List Bytes → StateM σ (Option (Bytes × StoreError))
  | [] => pure none
  | key :: keys => do
    let outcome ← (erase key).attempt
    let later ← eraseAll erase keys
    match outcome with
    | .ok () => pure later
    | .error error => pure (some (key, error))

/-- Undoes the steps with the keys `applied` after the next one failed with `cause`, and answers
the error of the transaction. -/
def undo (erase : Bytes → StoreM σ Unit) (applied : List Bytes) (cause : StoreError) :
    StateM σ StoreError := do
  match ← eraseAll erase applied with
  | none => pure (.rolledBack applied.length cause)
  | some (key, error) => pure (.rollbackFailed key cause error)

/-- Runs the transaction on `target`, where `erase` deletes a key.  Answers the outcome and the
finished transaction, which holds no step any more. -/
def runOn (tx : Transaction δ σ) (target : δ) (erase : Bytes → StoreM σ Unit) :
    StateM σ (Except StoreError Unit × Transaction δ σ) := do
  match tx.state with
  | .pending =>
    match ← TransactionStep.runAll target tx.steps [] with
    | (_, none) => pure (.ok (), ⟨[], .committed⟩)
    | (applied, some cause) =>
      let error ← undo erase applied cause
      pure (.error error, ⟨[], .rolledBack⟩)
  | _ => pure (.error .transactionFinished, tx)

/-- A pending transaction of which no step fails is committed. -/
theorem runOn_of_runAll_eq_none {tx : Transaction δ σ} {target : δ} (erase : Bytes → StoreM σ Unit)
    (hpending : tx.state = .pending) {applied : List Bytes} {state after : σ}
    (h : (TransactionStep.runAll target tx.steps []).run state = ((applied, none), after)) :
    (tx.runOn target erase).run state = ((.ok (), ⟨[], .committed⟩), after) := by
  rw [runOn, hpending]
  show (TransactionStep.runAll target tx.steps [] >>= _).run state = _
  rw [StoreM.run_bind_of_run_eq h]
  rfl

end Transaction

end OrderedStore
