import OrderedStore.Proofs.Store.Erasure
import OrderedStore.Proofs.Transaction.Run

/-!
# The effect of a transaction on its store

A pending transaction either runs all its steps and is committed, or stops at the first step that fails
and attempts to delete the keys of the steps before it, the latest first.  What it does is told by a
list of events that is written along.

* `Transaction.Event` is what a transaction does; `Transaction.watchOn` writes the events along.
* `Transaction.run_watchOn_of_succeeds` and `Transaction.run_watchOn_of_fails` are the events of the two
  kinds of runs.
* `Store.runTransaction_effect` describes both.
-/

namespace OrderedStore

open StoreM

variable {δ σ : Type} {target : δ} {tx : Transaction δ σ} {state between after : σ}
  {step : TransactionStep δ σ} {before rest : List (TransactionStep δ σ)} {cause : StoreError}

namespace Transaction

/-! ### Events -/

/-- What a transaction does: it runs the step with a number, or deletes a key to undo a step. -/
inductive Event where
  | step (index : Nat)
  | erase (key : Bytes)
  deriving DecidableEq

/-- A numbered step, which writes along that it is run. -/
def watchedStep (numbered : TransactionStep δ σ × Nat) : TransactionStep δ (σ × List Event) :=
  ⟨numbered.1.key, fun target => (numbered.1.run target).marked (.step numbered.2)⟩

/-- The transaction, whose steps write along that they are run. -/
def watched (tx : Transaction δ σ) : Transaction δ (σ × List Event) :=
  ⟨tx.steps.zipIdx.map watchedStep, tx.state⟩

/-- Runs the transaction and writes along what it does. -/
def watchOn (tx : Transaction δ σ) (target : δ) (erase : Bytes → StoreM σ Unit) :
    StateM (σ × List Event) (Except StoreError Unit × Transaction δ (σ × List Event)) :=
  tx.watched.runOn target fun key => (erase key).marked (.erase key)

theorem map_key_watchedStep (steps : List (TransactionStep δ σ)) :
    (steps.zipIdx.map watchedStep).map TransactionStep.key = steps.map TransactionStep.key := by
  conv_rhs => rw [← List.zipIdx_map_fst 0 steps]
  rw [List.map_map, List.map_map]
  rfl

/-- Steps that succeed write their numbers along. -/
theorem run_forM_watchedStep
    (h : (before.forM fun step => step.run target).run.run state = (.ok (), after)) :
    ((before.zipIdx.map watchedStep).forM fun step => step.run target).run.run (state, []) =
      (.ok (), (after, (List.range before.length).map .step)) := by
  -- Numbering the steps changes nothing in what they do.
  have hnumbered : (before.zipIdx.forM fun numbered => numbered.1.run target).run.run state =
      (.ok (), after) := by
    rw [← h]
    conv_rhs => rw [← List.zipIdx_map_fst 0 before]
    simp only [List.forM_eq_forM, List.forM_map]
  have hmarks : before.zipIdx.map (fun numbered => Event.step numbered.2) =
      (List.range before.length).map .step := by
    rw [List.range_eq_range', ← List.zipIdx_map_snd 0 before, List.map_map]
    rfl
  have hmarked := run_forM_marked (fun numbered => Event.step numbered.2) hnumbered []
  rw [List.nil_append, hmarks] at hmarked
  rw [← hmarked]
  simp only [List.forM_eq_forM, List.forM_map]
  rfl

theorem run_watchOn_of_succeeds (erase : Bytes → StoreM σ Unit) (hpending : tx.state = .pending)
    (h : (tx.steps.forM fun step => step.run target).run.run state = (.ok (), after)) :
    (tx.watchOn target erase).run (state, []) =
      ((.ok (), ⟨[], .committed⟩), (after, (List.range tx.size).map .step)) :=
  runOn_of_succeeds _ hpending (run_forM_watchedStep h)

theorem run_watchOn_of_fails (erase : Bytes → StoreM σ Unit) (hpending : tx.state = .pending)
    (hsteps : tx.steps = before ++ step :: rest)
    (hbefore : (before.forM fun step => step.run target).run.run state = (.ok (), between))
    (hstep : (step.run target).run.run between = (.error cause, after)) :
    let keys := (before.map TransactionStep.key).reverse
    let deletions := (attemptAll erase keys).run after
    (tx.watchOn target erase).run (state, []) =
      ((.error (undoError before.length cause deletions.1), ⟨[], .rolledBack⟩),
        (deletions.2, (List.range (before.length + 1)).map .step ++ keys.map .erase)) := by
  intro keys deletions
  have hwatched : tx.watched.steps = before.zipIdx.map watchedStep ++
      watchedStep (step, before.length) :: (rest.zipIdx (before.length + 1)).map watchedStep := by
    rw [watched, hsteps, List.zipIdx_append, List.zipIdx_cons, List.map_append, List.map_cons,
      Nat.zero_add]
  have hfails := run_marked (Event.step before.length) hstep ((List.range before.length).map .step)
  have hrun := runOn_of_fails (fun key => (erase key).marked (Event.erase key)) hpending hwatched
    (run_forM_watchedStep hbefore) hfails
  rw [map_key_watchedStep, List.length_map, List.length_zipIdx] at hrun
  rw [watchOn, hrun, run_attemptAll_marked Event.erase erase, List.range_succ, List.map_append]
  rfl

end Transaction

/-! ### The effect -/

open Transaction in
/-- **A failing transaction has exactly this effect.**  If no step fails, the transaction is committed
and deletes nothing.  If the steps `before` succeed and the next one fails with `cause`, no later step
is run; the keys of `before` are deleted, the latest first and each once, past deletions that fail; the
transaction is rolled back, and its error names the step or the first deletion that failed.  If the
error says that it was undone, and deletions remove their key, none of the keys is present. -/
theorem Store.runTransaction_effect (store : Store σ) (tx : Transaction (Store σ) σ)
    (hpending : tx.state = .pending) (state : σ) :
    (∀ after, (tx.steps.forM fun step => step.run store).run.run state = (.ok (), after) →
      (store.runTransaction tx).run state = ((.ok (), ⟨[], .committed⟩), after) ∧
        (tx.watchOn store store.erase).run (state, []) =
          ((.ok (), ⟨[], .committed⟩), (after, (List.range tx.size).map .step))) ∧
    ∀ before step rest between cause failed, tx.steps = before ++ step :: rest →
      (before.forM fun step => step.run store).run.run state = (.ok (), between) →
      (step.run store).run.run between = (.error cause, failed) →
        let keys := (before.map TransactionStep.key).reverse
        let deletions := (attemptAll store.erase keys).run failed
        deletions.1.map Prod.fst = keys ∧
        ∃ error, IsUndoError before.length cause deletions.1 error ∧
          (store.runTransaction tx).run state = ((.error error, ⟨[], .rolledBack⟩), deletions.2) ∧
          (tx.watchOn store store.erase).run (state, []) =
            ((.error error, ⟨[], .rolledBack⟩),
              (deletions.2, (List.range (before.length + 1)).map .step ++ keys.map .erase)) ∧
          ∀ Sound : σ → Prop, store.ErasesExactly Sound → Sound failed →
            error = .rolledBack before.length cause →
              ∀ step ∈ before, ¬ store.Present deletions.2 step.key := by
  refine ⟨fun after h => ⟨runOn_of_succeeds _ hpending h, run_watchOn_of_succeeds _ hpending h⟩, ?_⟩
  intro before step rest between cause failed hsteps hbefore hstep keys deletions
  have herror := isUndoError_undoError before.length cause deletions.1
  refine ⟨map_fst_attemptAll _ _ _, _, herror, runOn_of_fails _ hpending hsteps hbefore hstep,
    run_watchOn_of_fails _ hpending hsteps hbefore hstep, ?_⟩
  intro Sound herases hfailed hrolledBack step hstep
  obtain ⟨-, hpresent⟩ := herases.attemptAll hfailed keys (herror.rolledBack_iff.1 hrolledBack)
  rw [hpresent]
  rintro ⟨hkey, -⟩
  exact hkey (List.mem_reverse.2 (List.mem_map_of_mem hstep))

/-- In a view, two steps are undone after the third has failed.  A step with an empty key cannot be
undone: its deletion fails, and the deletion behind it is made all the same. -/
theorem Store.runTransaction_effect_undone :
    let store := Memory.store.view [9]
    let write := fun key : Bytes =>
      (⟨key, fun store => store.write true (.set key [5])⟩ :
        TransactionStep (Store OrderedMap) OrderedMap)
    let fail : TransactionStep (Store OrderedMap) OrderedMap := ⟨[3], fun _ => throw (.backend "full")⟩
    let skip : TransactionStep (Store OrderedMap) OrderedMap := ⟨[], fun _ => pure ()⟩
    (∃ after, (store.runTransaction (.ofSteps [write [1], write [1, 2], fail, write [4]])).run .empty =
        ((.error (.rolledBack 2 (.backend "full")), ⟨[], .rolledBack⟩), after) ∧
      ¬ store.Present after [1] ∧ ¬ store.Present after [1, 2]) ∧
    ∃ after, ((Transaction.ofSteps [write [1], skip, write [2], fail]).watchOn store store.erase).run
        (.empty, []) =
      ((.error (.rollbackFailed [] (.backend "full") .emptyKey), ⟨[], .rolledBack⟩),
        (after, [.step 0, .step 1, .step 2, .step 3, .erase [2], .erase [], .erase [1]])) := by
  intro store write fail skip
  refine ⟨?_, ?_⟩
  · obtain ⟨-, error, herror, hrun, -, hpresent⟩ :=
      (runTransaction_effect store (.ofSteps [write [1], write [1, 2], fail, write [4]]) rfl .empty).2
        [write [1], write [1, 2]] fail [write [4]] _ _ _ rfl rfl rfl
    have hundone : error = .rolledBack 2 (.backend "full") := herror.rolledBack_iff.2 (by decide)
    have habsent := hpresent _ (Memory.store_erasesExactly.view [9])
      ⟨_, (OrderedMap.holds_empty.insert ⟨[9, 1], [5]⟩).insert ⟨[9, 1, 2], [5]⟩⟩ hundone
    rw [hundone] at hrun
    exact ⟨_, hrun, habsent (write [1]) (by simp), habsent (write [1, 2]) (by simp)⟩
  · obtain ⟨-, error, herror, -, hwatch, -⟩ :=
      (runTransaction_effect store (.ofSteps [write [1], skip, write [2], fail]) rfl .empty).2
        [write [1], skip, write [2]] fail [] _ _ _ rfl rfl rfl
    have hfailed : error = .rollbackFailed [] (.backend "full") .emptyKey :=
      herror.rollbackFailed [([2], .ok ())] [] .emptyKey [([1], .ok ())] rfl (by decide)
    rw [hfailed] at hwatch
    exact ⟨_, hwatch⟩

end OrderedStore
