import OrderedStore.Proofs.Calls
import OrderedStore.Transaction

/-!
# Runs of transactions

What a run of a transaction comes to, in terms of its steps and of the deletions that undo them.  The
steps run as one sequence of calls that stops at the first failure; the deletions are attempted one
after the other, whatever becomes of them.

* `Transaction.undoError` is the error of a transaction whose deletions had given outcomes, and
  `Transaction.IsUndoError` says which one it is.
* `TransactionStep.forM_cases` says that the steps succeed or one of them fails.
* `Transaction.runOn_of_succeeds` and `Transaction.runOn_of_fails` are the two kinds of runs of a pending
  transaction, `Transaction.runOn_of_ne_pending` those of a finished one.
-/

namespace OrderedStore

open StoreM

variable {δ σ : Type} {target : δ} {state between after : σ} {step : TransactionStep δ σ}
  {before : List (TransactionStep δ σ)} {cause : StoreError}

namespace TransactionStep

/-! ### Steps -/

/-- Steps that succeed are passed, and their keys collected the latest first. -/
theorem runAll_append_of_ok
    (h : (before.forM fun step => step.run target).run.run state = (.ok (), between))
    (steps : List (TransactionStep δ σ)) (applied : List Bytes) :
    (runAll target (before ++ steps) applied).run state =
      (runAll target steps ((before.map key).reverse ++ applied)).run between := by
  induction before generalizing state applied with
  | nil =>
    cases h
    rfl
  | cons first before ih =>
    obtain ⟨⟨⟩, next, hfirst, hrest⟩ := run_bind_eq_ok_iff.1 h
    rw [List.cons_append, runAll_cons_of_ok hfirst, ih hrest, List.map_cons, List.reverse_cons,
      List.append_assoc, List.singleton_append]

/-- A step that fails ends the run. -/
theorem runAll_cons_of_error (h : (step.run target).run.run state = (.error cause, after))
    (steps : List (TransactionStep δ σ)) (applied : List Bytes) :
    (runAll target (step :: steps) applied).run state = ((applied, some cause), after) := by
  have hattempt : (step.run target).attempt.run state = (.error cause, after) := h
  rw [runAll, run_bind_of_run_eq hattempt]
  rfl

/-- Either all steps succeed, or one fails behind steps that succeed. -/
theorem forM_cases (target : δ) (steps : List (TransactionStep δ σ)) (state : σ) :
    (∃ after, (steps.forM fun step => step.run target).run.run state = (.ok (), after)) ∨
      ∃ before step rest between cause failed, steps = before ++ step :: rest ∧
        (before.forM fun step => step.run target).run.run state = (.ok (), between) ∧
        (step.run target).run.run between = (.error cause, failed) := by
  induction steps generalizing state with
  | nil => exact .inl ⟨state, rfl⟩
  | cons first steps ih =>
    rcases hfirst : (first.run target).run.run state with ⟨cause | ⟨⟩, next⟩
    · exact .inr ⟨[], first, steps, state, cause, next, rfl, rfl, hfirst⟩
    · obtain ⟨after, hsteps⟩ | ⟨before, step, rest, between, cause, failed, rfl, hbefore, hstep⟩ := ih next
      · exact .inl ⟨after, (run_bind_of_ok hfirst).trans hsteps⟩
      · exact .inr ⟨first :: before, step, rest, between, cause, failed, rfl,
          (run_bind_of_ok hfirst).trans hbefore, hstep⟩

end TransactionStep

namespace Transaction

/-! ### Deletions -/

/-- The first deletion that failed, with its error. -/
def firstFailure? (deletions : List (Bytes × Except StoreError Unit)) : Option (Bytes × StoreError) :=
  deletions.findSome? fun
    | (_, .ok ()) => none
    | (key, .error error) => some (key, error)

/-- The error of a transaction whose step `index` failed with `cause`, after the deletions that
undo the earlier steps. -/
def undoError (index : Nat) (cause : StoreError) (deletions : List (Bytes × Except StoreError Unit)) :
    StoreError :=
  match firstFailure? deletions with
  | none => .rolledBack index cause
  | some (key, error) => .rollbackFailed key cause error

theorem firstFailure?_eq_none_iff {deletions : List (Bytes × Except StoreError Unit)} :
    firstFailure? deletions = none ↔ ∀ deletion ∈ deletions, deletion.2 = .ok () := by
  rw [firstFailure?, List.findSome?_eq_none_iff]
  refine forall₂_congr fun deletion _ => ?_
  obtain ⟨key, error | ⟨⟩⟩ := deletion <;> simp

theorem firstFailure?_append_cons {passed : List (Bytes × Except StoreError Unit)}
    (h : ∀ deletion ∈ passed, deletion.2 = .ok ()) (key : Bytes) (error : StoreError)
    (rest : List (Bytes × Except StoreError Unit)) :
    firstFailure? (passed ++ (key, .error error) :: rest) = some (key, error) := by
  have hpassed := firstFailure?_eq_none_iff.2 h
  rw [firstFailure?] at hpassed ⊢
  rw [List.findSome?_append, hpassed]
  rfl

/-- The error says that all deletions succeeded, or names the first that failed. -/
structure IsUndoError (index : Nat) (cause : StoreError)
    (deletions : List (Bytes × Except StoreError Unit)) (error : StoreError) : Prop where
  rolledBack_iff : error = .rolledBack index cause ↔ ∀ deletion ∈ deletions, deletion.2 = .ok ()
  rollbackFailed : ∀ passed key failure rest, deletions = passed ++ (key, .error failure) :: rest →
    (∀ deletion ∈ passed, deletion.2 = .ok ()) → error = .rollbackFailed key cause failure

theorem isUndoError_undoError (index : Nat) (cause : StoreError)
    (deletions : List (Bytes × Except StoreError Unit)) :
    IsUndoError index cause deletions (undoError index cause deletions) where
  rolledBack_iff := by
    rw [undoError, ← firstFailure?_eq_none_iff]
    cases firstFailure? deletions <;> simp
  rollbackFailed := by
    rintro passed key failure rest rfl hpassed
    rw [undoError, firstFailure?_append_cons hpassed]

/-- The deletions are all attempted, in the given order. -/
theorem run_eraseAll (erase : Bytes → StoreM σ Unit) (keys : List Bytes) (state : σ) :
    (eraseAll erase keys).run state =
      (firstFailure? ((attemptAll erase keys).run state).1, ((attemptAll erase keys).run state).2) := by
  induction keys generalizing state with
  | nil => rfl
  | cons key keys ih =>
    rcases herase : (erase key).run.run state with ⟨outcome, between⟩
    have hattempt : (erase key).attempt.run state = (outcome, between) := herase
    rw [run_attemptAll_cons erase herase, eraseAll, run_bind_of_run_eq hattempt]
    show (eraseAll erase keys >>= _).run between = _
    rw [run_bind_of_run_eq (ih between)]
    cases outcome <;> rfl

/-! ### Runs -/

variable {tx : Transaction δ σ}

/-- A transaction that has been run refuses to run, without any call. -/
theorem runOn_of_ne_pending (h : tx.state ≠ .pending) (target : δ) (erase : Bytes → StoreM σ Unit) :
    tx.runOn target erase = pure (.error .transactionFinished, tx) := by
  cases hstate : tx.state with
  | pending => exact absurd hstate h
  | committed => simp only [runOn, hstate]
  | rolledBack => simp only [runOn, hstate]

/-- A transaction of which no step fails is committed, and nothing is deleted. -/
theorem runOn_of_succeeds (erase : Bytes → StoreM σ Unit) (hpending : tx.state = .pending)
    (h : (tx.steps.forM fun step => step.run target).run.run state = (.ok (), after)) :
    (tx.runOn target erase).run state = ((.ok (), ⟨[], .committed⟩), after) := by
  have hrun := TransactionStep.runAll_append_of_ok h [] []
  rw [List.append_nil, List.append_nil] at hrun
  exact runOn_of_runAll_eq_none erase hpending hrun

/-- If the steps `before` succeed and the next one fails, the deletions of their keys are attempted,
the latest first, and the transaction is rolled back. -/
theorem runOn_of_fails (erase : Bytes → StoreM σ Unit) (hpending : tx.state = .pending)
    {rest : List (TransactionStep δ σ)} (hsteps : tx.steps = before ++ step :: rest)
    (hbefore : (before.forM fun step => step.run target).run.run state = (.ok (), between))
    (hstep : (step.run target).run.run between = (.error cause, after)) :
    let keys := (before.map TransactionStep.key).reverse
    let deletions := (attemptAll erase keys).run after
    (tx.runOn target erase).run state =
      ((.error (undoError before.length cause deletions.1), ⟨[], .rolledBack⟩),
        deletions.2) := by
  intro keys deletions
  have hrun : (TransactionStep.runAll target tx.steps []).run state = ((keys, some cause), after) := by
    rw [hsteps, TransactionStep.runAll_append_of_ok hbefore, List.append_nil,
      TransactionStep.runAll_cons_of_error hstep]
  have hlength : keys.length = before.length := by simp [keys]
  have hundo : (undo erase keys cause).run after =
      (undoError before.length cause deletions.1, deletions.2) := by
    rw [undo, run_bind_of_run_eq (run_eraseAll erase keys after), undoError, ← hlength]
    cases firstFailure? deletions.1 <;> rfl
  rw [runOn, hpending]
  show (TransactionStep.runAll target tx.steps [] >>= _).run state = _
  rw [run_bind_of_run_eq hrun]
  show (undo erase keys cause >>= _).run after = _
  rw [run_bind_of_run_eq hundo]
  rfl

end Transaction

end OrderedStore
