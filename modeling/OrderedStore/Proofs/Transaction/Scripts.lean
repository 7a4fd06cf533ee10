import OrderedStore.Proofs.Backend.Faultless
import OrderedStore.Proofs.Simulation.Session
import OrderedStore.Proofs.Store.Erasure
import OrderedStore.Proofs.Transaction.Run

/-!
# Transactions of scripts on stores without faults

A step that makes calls on the store it is handed, and does nothing else, keeps what all calls of the store
keep.  So do the steps of a transaction, up to the one that fails; if the transaction then reports that it has
been undone, no key of a step before that one is present.

* `TransactionStep.Keeps` says that a step keeps a property of the state.
* `TransactionStep.keeps_of_alike` and `ScriptSteps.keeps` are steps that keep that a state holds contents.
* `Store.ErasesExactly.absent_of_rolledBack` says what a complete rollback leaves,
  `Store.Faultless.scripts_undone` says it for scripts on memories, engines and views of them.
-/

namespace OrderedStore

open StoreM

variable {δ ε σ τ : Type} {R : σ → τ → Prop} {Sound : σ → Prop} {target : δ}

namespace TransactionStep

/-! ### Steps that keep a property -/

/-- A step leaves a sound state, whether or not it fails. -/
def Keeps (Sound : σ → Prop) (target : δ) (step : TransactionStep δ σ) : Prop :=
  ∀ state, Sound state → Sound ((step.run target).run.run state).2

/-- Steps that keep a property keep it together. -/
theorem sound_of_forM {steps : List (TransactionStep δ σ)} (h : ∀ step ∈ steps, step.Keeps Sound target)
    {state after : σ} (hs : Sound state) {outcome : Except StoreError PUnit}
    (hrun : (steps.forM fun step => step.run target).run.run state = (outcome, after)) : Sound after := by
  induction steps generalizing state with
  | nil =>
    cases hrun
    exact hs
  | cons step steps ih =>
    obtain ⟨hstep, hsteps⟩ := List.forall_mem_cons.1 h
    have hbetween := hstep state hs
    rcases hfirst : (step.run target).run.run state with ⟨error | ⟨⟩, between⟩
    · rw [hfirst] at hbetween
      have herror := (run_bind_of_error hfirst).symm.trans hrun
      cases herror
      exact hbetween
    · rw [hfirst] at hbetween
      exact ih hsteps hbetween ((run_bind_of_ok hfirst).symm.trans hrun)

/-- Steps that do the same on related states leave states that are related to some state. -/
theorem keeps_of_alike {T : δ → ε → Prop} {target' : ε} (htarget : T target target')
    {steps : List (TransactionStep δ σ)} {steps' : List (TransactionStep ε τ)}
    (h : List.Forall₂ (TransactionStep.Alike T R) steps steps') :
    ∀ step ∈ steps, step.Keeps (fun state => ∃ state', R state state') target := by
  induction h with
  | nil => exact fun _ hstep => absurd hstep List.not_mem_nil
  | cons hfirst _ ih =>
    refine List.forall_mem_cons.2 ⟨?_, ih⟩
    rintro state ⟨state', hR⟩
    exact ⟨_, (hfirst.run htarget state state' hR).2⟩

end TransactionStep

/-- Steps that are scripts keep what their store keeps. -/
theorem ScriptSteps.keeps {a : Store σ} {b : Store τ} (h : a.Alike R b) (steps : ScriptSteps) :
    ∀ step ∈ steps.toList, step.Keeps (fun state => ∃ state', R state state') a :=
  TransactionStep.keeps_of_alike (h.alikeWith h.newBatch).servesAlike (toList_alike steps)

/-! ### Complete rollbacks -/

namespace Store

/-- If the error of a transaction says that it has been undone, deletions remove their key, and the steps keep
what deletions rely on, then no key of a step before the one that failed is present. -/
theorem ErasesExactly.absent_of_rolledBack {store : Store σ} (herases : store.ErasesExactly Sound)
    {tx : Transaction (Store σ) σ} (hpending : tx.state = .pending)
    (hkeeps : ∀ step ∈ tx.steps, step.Keeps Sound store) {state after : σ} (hs : Sound state) {index : ℕ}
    {cause : StoreError} {finished : Transaction (Store σ) σ}
    (hrun : (store.runTransaction tx).run state = ((.error (.rolledBack index cause), finished), after)) :
    Sound after ∧ ∀ step ∈ tx.steps.take index, ¬ store.Present after step.key := by
  obtain ⟨last, hsteps⟩ | ⟨before, step, rest, between, cause', failed, hsteps, hbefore, hstep⟩ :=
    TransactionStep.forM_cases store tx.steps state
  · have hcommitted := Transaction.runOn_of_succeeds store.erase hpending hsteps
    cases hcommitted.symm.trans hrun
  · have hfails := Transaction.runOn_of_fails store.erase hpending hsteps hbefore hstep
    obtain ⟨houtcome, rfl⟩ := Prod.mk.inj (hfails.symm.trans hrun)
    have herror := Except.error.inj (Prod.mk.inj houtcome).1
    rw [hsteps] at hkeeps
    -- The state in which the step has failed is sound, so each deletion removes its key.
    have hbetween : Sound between := TransactionStep.sound_of_forM
      (fun step hstep => hkeeps step (List.mem_append_left _ hstep)) hs hbefore
    have hfailed := hkeeps step (List.mem_append_right _ List.mem_cons_self) between hbetween
    rw [hstep] at hfailed
    let keys := (before.map TransactionStep.key).reverse
    have hindex : before.length = index ∧
        ∀ deletion ∈ ((StoreM.attemptAll store.erase keys).run failed).1, deletion.2 = .ok () := by
      rw [Transaction.undoError] at herror
      split at herror
      · rename_i hnone
        exact ⟨(StoreError.rolledBack.inj herror).1, Transaction.firstFailure?_eq_none_iff.1 hnone⟩
      · cases herror
    obtain ⟨hafter, hpresent⟩ := herases.attemptAll hfailed _ hindex.2
    refine ⟨hafter, fun step hstep => ?_⟩
    rw [hsteps, ← hindex.1, List.take_left] at hstep
    rw [hpresent]
    rintro ⟨hkey, -⟩
    exact hkey (List.mem_reverse.2 (List.mem_map_of_mem hstep))

/-- Views of any depth on a store without faults delete exactly. -/
theorem Faultless.handle_erasesExactly {store : Store σ} {holds : σ → Contents → Prop}
    (h : store.Faultless holds) (handle : Handle Unit) :
    (handle.store fun _ => store).ErasesExactly fun state => ∃ contents, holds state contents := by
  induction handle with
  | root => exact h.alike.erasesExactly Contents.store_erasesExactly
  | view stem source ih => exact ih.view stem

/-- **A transaction of scripts that has been undone.**  On a memory, on an engine that acts as a sorted map,
and on views of them, none of the keys of the steps before the one that failed is present, and the store still
holds contents. -/
theorem Faultless.scripts_undone {store : Store σ} {holds : σ → Contents → Prop}
    (h : store.Faultless holds) (handle : Handle Unit) (steps : ScriptSteps) {state after : σ}
    {contents : Contents} (hs : holds state contents) {index : ℕ} {cause : StoreError}
    {finished : Transaction (Store σ) σ} :
    let target := handle.store fun _ => store
    (target.runTransaction (.ofSteps steps.toList)).run state =
        ((.error (.rolledBack index cause), finished), after) →
      (∃ contents', holds after contents') ∧
        ∀ step ∈ (steps.toList (σ := σ)).take index, ¬ target.Present after step.key := by
  intro target hrun
  have hkeeps := ScriptSteps.keeps (handle.store_alike fun _ => h.alike) steps
  exact (h.handle_erasesExactly handle).absent_of_rolledBack rfl hkeeps ⟨contents, hs⟩ hrun

end Store

end OrderedStore
