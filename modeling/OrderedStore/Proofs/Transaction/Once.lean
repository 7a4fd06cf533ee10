import OrderedStore.Proofs.Simulation.Transaction
import OrderedStore.Proofs.Store.Recorded
import OrderedStore.Proofs.Transaction.Effect

/-!
# Transactions run once

Steps are appended to a transaction and it is run, on whatever targets and in whatever order.  Only the
first run does anything: it runs the steps that have been appended before it, each once and in order, up to
the first that fails.  The steps write along that they are run, each with its number among all steps that
are appended.

* `Transaction.Use` is what can be done with a transaction, `Transaction.use` does it.
* `Transaction.watch` writes the events along; `Transaction.use_watched_agree` says that this changes
  nothing else.
* `Transaction.use_of_ne_pending` says what can be done with a finished transaction.
* `Transaction.runs_at_most_once` describes all uses of a transaction.
-/

namespace OrderedStore.Transaction

open StoreM

variable {δ σ : Type}

/-! ### Uses -/

/-- What is done with a transaction: a step is appended, such as one that sets a key, or it is run. -/
inductive Use (δ σ : Type) where
  | append (step : TransactionStep δ σ)
  | run (target : δ) (erase : Bytes → StoreM σ Unit)

/-- Uses a transaction in turn and collects the outcomes of its runs. -/
def use : Transaction δ σ → List (Use δ σ) → StateM σ (List (Except StoreError Unit) × Transaction δ σ)
  | tx, [] => pure ([], tx)
  | tx, .append step :: uses => (tx.append step).use uses
  | tx, .run target erase :: uses => do
    let (outcome, tx) ← tx.runOn target erase
    let (outcomes, tx) ← tx.use uses
    return (outcome :: outcomes, tx)

namespace Use

/-- The step that is appended. -/
def step? : Use δ σ → Option (TransactionStep δ σ)
  | append step => some step
  | run _ _ => none

/-- What a finished transaction answers. -/
def refusal? : Use δ σ → Option (Except StoreError Unit)
  | append _ => none
  | run _ _ => some (.error .transactionFinished)

/-- The uses, of which steps and deletions write along that they are made.  The steps are numbered from
`number` on. -/
def watched : Nat → List (Use δ σ) → List (Use δ (σ × List Event))
  | _, [] => []
  | number, append step :: uses => append (watchedStep (step, number)) :: watched (number + 1) uses
  | number, run target erase :: uses =>
    run target (fun key => (erase key).marked (.erase key)) :: watched number uses

/-- Steps are appended, and that is all or a first run follows. -/
theorem split_at_run (uses : List (Use δ σ)) :
    (∃ steps : List (TransactionStep δ σ), uses = steps.map append) ∨
      ∃ (steps : List (TransactionStep δ σ)) (target : δ) (erase : Bytes → StoreM σ Unit)
        (later : List (Use δ σ)), uses = steps.map append ++ run target erase :: later := by
  induction uses with
  | nil => exact .inl ⟨[], rfl⟩
  | cons use uses ih =>
    cases use with
    | append step =>
      obtain ⟨steps, rfl⟩ | ⟨steps, target, erase, later, rfl⟩ := ih
      · exact .inl ⟨step :: steps, rfl⟩
      · exact .inr ⟨step :: steps, target, erase, later, rfl⟩
    | run target erase => exact .inr ⟨[], target, erase, uses, rfl⟩

theorem watched_map_append (steps : List (TransactionStep δ σ)) (number : Nat) (later : List (Use δ σ)) :
    watched number (steps.map append ++ later) =
      ((steps.zipIdx number).map watchedStep).map append ++ watched (number + steps.length) later := by
  induction steps generalizing number with
  | nil => rfl
  | cons step steps ih =>
    have hnumber : number + 1 + steps.length = number + (steps.length + 1) := by omega
    show append _ :: watched (number + 1) (steps.map append ++ later) = _
    rw [ih, hnumber]
    rfl

theorem filterMap_refusal?_watched (number : Nat) (uses : List (Use δ σ)) :
    (watched number uses).filterMap refusal? = uses.filterMap refusal? := by
  induction uses generalizing number with
  | nil => rfl
  | cons use uses ih =>
    cases use with
    | append step => exact ih (number + 1)
    | run target erase => exact congrArg (_ :: ·) (ih number)

theorem length_filterMap_step?_watched (number : Nat) (uses : List (Use δ σ)) :
    ((watched number uses).filterMap step?).length = (uses.filterMap step?).length := by
  induction uses generalizing number with
  | nil => rfl
  | cons use uses ih =>
    cases use with
    | append step => exact congrArg (· + 1) (ih (number + 1))
    | run target erase => exact ih number

end Use

/-- Uses an empty transaction and writes along what it does. -/
def watch (uses : List (Use δ σ)) :
    StateM (σ × List Event) (List (Except StoreError Unit) × Transaction δ (σ × List Event)) :=
  empty.use (Use.watched 0 uses)

/-! ### Before the first run -/

theorem use_map_append (tx : Transaction δ σ) (steps : List (TransactionStep δ σ))
    (later : List (Use δ σ)) :
    tx.use (steps.map .append ++ later) = ({ tx with steps := tx.steps ++ steps }).use later := by
  induction steps generalizing tx with
  | nil =>
    rw [List.append_nil]
    rfl
  | cons step steps ih =>
    show (tx.append step).use (steps.map .append ++ later) = _
    rw [ih, append, List.append_assoc, List.singleton_append]

/-- Steps that are appended to an empty transaction are those of a watched one. -/
theorem watch_map_append (steps : List (TransactionStep δ σ)) (later : List (Use δ σ)) :
    watch (steps.map .append ++ later) =
      (ofSteps steps).watched.use (Use.watched steps.length later) := by
  rw [watch, Use.watched_map_append, use_map_append, Nat.zero_add]
  rfl

/-! ### After the first run -/

/-- What is done with a finished transaction makes no call: steps wait in it, and runs are refused. -/
theorem use_of_ne_pending {tx : Transaction δ σ} (h : tx.state ≠ .pending) (uses : List (Use δ σ)) :
    tx.use uses = pure (uses.filterMap Use.refusal?,
      { tx with steps := tx.steps ++ uses.filterMap Use.step? }) := by
  induction uses generalizing tx with
  | nil =>
    rw [List.filterMap_nil, List.filterMap_nil, List.append_nil]
    rfl
  | cons use uses ih =>
    cases use with
    | append step =>
      show (tx.append step).use uses = _
      rw [ih (show (tx.append step).state ≠ .pending from h), append, List.append_assoc]
      rfl
    | run target erase =>
      show (tx.runOn target erase >>= _) = _
      rw [runOn_of_ne_pending h, pure_bind]
      show (tx.use uses >>= _) = _
      rw [ih h, pure_bind]
      rfl

/-! ### The first run -/

/-- The uses behind a run that finishes the transaction make no call. -/
theorem run_use_cons {tx finished : Transaction δ σ} {target : δ} {erase : Bytes → StoreM σ Unit}
    {outcome : Except StoreError Unit} {state after : σ}
    (h : (tx.runOn target erase).run state = ((outcome, finished), after))
    (hfinished : finished.state ≠ .pending) (later : List (Use δ σ)) :
    (tx.use (.run target erase :: later)).run state =
      ((outcome :: later.filterMap Use.refusal?,
        { finished with steps := finished.steps ++ later.filterMap Use.step? }), after) := by
  show (tx.runOn target erase >>= _).run state = _
  rw [run_bind_of_run_eq h]
  show (finished.use later >>= _).run after = _
  rw [use_of_ne_pending hfinished, pure_bind]
  rfl

/-- A run of a pending transaction finishes it.  It runs the steps in order, all of them if it commits, and
then only deletes. -/
theorem run_watchOn {tx : Transaction δ σ} (hpending : tx.state = .pending) (target : δ)
    (erase : Bytes → StoreM σ Unit) (state : σ) :
    ∃ outcome final after count, ∃ keys : List Bytes,
      (tx.watchOn target erase).run (state, []) =
        ((outcome, ⟨[], final⟩), (after, (List.range count).map .step ++ keys.map .erase)) ∧
      count ≤ tx.size ∧ (final = .committed ∧ count = tx.size ∨ final = .rolledBack) := by
  obtain ⟨after, h⟩ | ⟨before, step, rest, between, cause, failed, hsteps, hbefore, hstep⟩ :=
    TransactionStep.forM_cases target tx.steps state
  · refine ⟨.ok (), .committed, after, tx.size, [], ?_, Nat.le_refl _, .inl ⟨rfl, rfl⟩⟩
    rw [run_watchOn_of_succeeds erase hpending h, List.map_nil, List.append_nil]
  · refine ⟨_, .rolledBack, _, before.length + 1, _,
      run_watchOn_of_fails erase hpending hsteps hbefore hstep, ?_, .inr rfl⟩
    rw [size, hsteps, List.length_append, List.length_cons]
    omega

/-! ### Watched uses -/

/-- Watching a transaction changes nothing in what it does. -/
theorem use_watched_agree {tx : Transaction δ σ} {tx' : Transaction δ (σ × List Event)}
    (h : tx'.Alike Eq (fun marked state => marked.1 = state) tx) (number : Nat) (uses : List (Use δ σ)) :
    Agree (fun marked state => marked.1 = state)
      (fun left right => left.1 = right.1 ∧ left.2.Alike Eq (fun marked state => marked.1 = state) right.2)
      (tx'.use (Use.watched number uses)) (tx.use uses) := by
  induction uses generalizing tx tx' number with
  | nil => exact .pure ⟨rfl, h⟩
  | cons use uses ih =>
    cases use with
    | append step =>
      refine ih (h.append ⟨rfl, ?_⟩) (number + 1)
      rintro target _ rfl
      exact marked_agree _ _ fun _ => rfl
    | run target erase =>
      refine .bind (h.runOn rfl fun key _ => marked_agree _ _ fun _ => rfl) ?_
      rintro ⟨outcome, tx'⟩ ⟨_, tx⟩ ⟨rfl, hafter⟩
      refine .bind (ih hafter number) ?_
      rintro ⟨outcomes, tx'⟩ ⟨_, tx⟩ ⟨rfl, hlast⟩
      exact .pure ⟨rfl, hlast⟩

/-! ### All uses -/

/-- **A transaction runs at most once.**  A transaction is used in any way: steps are appended to it, and
it is run on any targets with any deletions, all of which may fail.

If only steps are appended, none of them is run; the transaction is pending and holds them all.  Otherwise
the uses begin with steps, which a first run follows.  What has happened at the end is what had happened in
the first run: the first `count` of these steps were run, each once and in order, and then some keys were
deleted.  The transaction is still committed or rolled back as it was after that run, and holds the steps
that have been appended since.  All later runs are refused, as is every run from then on, without any
call. -/
theorem runs_at_most_once (uses : List (Use δ σ)) (state : σ) :
    ∃ outcomes tx after log, (watch uses).run (state, []) = ((outcomes, tx), (after, log)) ∧
      (∃ plain, (empty.use uses).run state = ((outcomes, plain), after) ∧ plain.state = tx.state ∧
        plain.size = tx.size) ∧
      ((∃ steps : List (TransactionStep δ σ), uses = steps.map .append ∧
          outcomes = [] ∧ tx.state = .pending ∧ tx.size = steps.length ∧ after = state ∧ log = []) ∨
        ∃ (steps : List (TransactionStep δ σ)) (target : δ) (erase : Bytes → StoreM σ Unit)
          (later : List (Use δ σ)), uses = steps.map .append ++ .run target erase :: later ∧
          ∃ outcome final count, ∃ keys : List Bytes,
            (watch (steps.map .append ++ [.run target erase])).run (state, []) =
                (([outcome], ⟨[], final⟩), (after, log)) ∧
              log = (List.range count).map .step ++ keys.map .erase ∧ count ≤ steps.length ∧
              (final = .committed ∧ count = steps.length ∨ final = .rolledBack) ∧
              tx.state = final ∧ tx.size = (later.filterMap Use.step?).length ∧
              outcomes = outcome :: later.filterMap Use.refusal? ∧
              ∀ target erase, tx.runOn target erase = pure (.error .transactionFinished, tx)) := by
  rcases hwatch : (watch uses).run (state, []) with ⟨⟨outcomes, tx⟩, after, log⟩
  refine ⟨outcomes, tx, after, log, rfl, ?_, ?_⟩
  · obtain ⟨⟨houtcomes, halike⟩, hstate⟩ := use_watched_agree alike_empty 0 uses (state, []) state rfl
    rw [show (empty.use (Use.watched 0 uses)).run (state, []) = _ from hwatch] at houtcomes halike hstate
    exact ⟨_, Prod.ext (Prod.ext houtcomes.symm rfl) hstate.symm, halike.state.symm, halike.size_eq.symm⟩
  obtain ⟨steps, rfl⟩ | ⟨steps, target, erase, later, rfl⟩ := Use.split_at_run uses
  · rw [← List.append_nil (steps.map _), watch_map_append] at hwatch
    cases hwatch
    exact .inl ⟨steps, rfl, rfl, rfl, by simp [size, watched, ofSteps], rfl, rfl⟩
  · obtain ⟨outcome, final, reached, count, keys, hrun, hcount, hfinal⟩ :=
      run_watchOn (show (ofSteps steps).state = .pending from rfl) target erase state
    have hfinished : final ≠ .pending := by
      rintro rfl
      simp at hfinal
    have hfirst := run_use_cons hrun hfinished []
    rw [watch_map_append] at hwatch
    have hall := hwatch.symm.trans (run_use_cons hrun hfinished (Use.watched steps.length later))
    cases hall
    refine .inr ⟨steps, target, erase, later, rfl, outcome, final, count, keys, ?_, rfl, hcount, hfinal,
      rfl, ?_, ?_, ?_⟩
    · rw [watch_map_append]
      exact hfirst
    · exact Use.length_filterMap_step?_watched steps.length later
    · rw [Use.filterMap_refusal?_watched]
    · exact runOn_of_ne_pending hfinished

/-- The second of three steps fails: the first is undone, the third is not run, and neither is the step that
is appended later. -/
example :
    let set (key : Bytes) : Use (Store OrderedMap) OrderedMap :=
      .append ⟨key, fun store => store.write true (.set key [7])⟩
    let fail : Use (Store OrderedMap) OrderedMap := .append ⟨[2], fun _ => throw .walkAborted⟩
    let run (store : Store OrderedMap) : Use (Store OrderedMap) OrderedMap := .run store store.erase
    let uses := [set [1], fail, set [3], run Memory.store, set [4], run (Memory.store.view [5])]
    ((watch uses).run (.empty, [])).2.2 = [.step 0, .step 1, .erase [1]] ∧
      ((watch uses).run (.empty, [])).1.1 =
        [.error (.rolledBack 1 .walkAborted), .error .transactionFinished] := by
  decide

end OrderedStore.Transaction
