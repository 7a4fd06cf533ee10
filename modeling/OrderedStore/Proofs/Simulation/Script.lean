import OrderedStore.Proofs.Simulation.Store
import OrderedStore.Proofs.Simulation.Transaction

/-!
# Scripts on stores that cannot be told apart

A script makes calls on the store that it is handed and knows nothing else of it.  On two stores whose
calls agree it has the same outcome, and so have transactions whose steps are scripts.

* `Store.ServesAlike` compares the calls that a script can make.
* `Script.run_agree` compares what a script does.
* `Transaction.AlwaysAlike` compares transactions of scripts, whatever relation of states is kept.
-/

namespace OrderedStore

variable {σ τ : Type} {R : σ → τ → Prop}

/-! ### The calls of scripts -/

/-- The calls that a script can make agree. -/
structure Store.ServesAlike (R : σ → τ → Prop) (a : Store σ) (b : Store τ) : Prop where
  get : ∀ key, CallsAgree R Eq (a.get key) (b.get key)
  has : ∀ key, CallsAgree R Eq (a.has key) (b.has key)
  write : ∀ sync op, CallsAgree R Eq (a.write sync op) (b.write sync op)
  scan : ∀ direction bounds, CallsAgree R Eq (a.scan direction bounds) (b.scan direction bounds)
  writeBatch : ∀ sync ops, CallsAgree R Eq (a.writeBatch sync ops) (b.writeBatch sync ops)

theorem Store.AlikeWith.servesAlike {B : Batch σ → Batch τ → Prop} {a : Store σ} {b : Store τ}
    (h : a.AlikeWith B R b) : a.ServesAlike R b :=
  ⟨h.get, h.has, h.write, h.scan, h.writeBatch⟩

/-- Alike transactions have the same outcome on stores that serve them alike. -/
theorem Store.ServesAlike.runTransaction {a : Store σ} {b : Store τ} (h : a.ServesAlike R b)
    {tx : Transaction (Store σ) σ} {tx' : Transaction (Store τ) τ}
    (htx : tx.Alike (Store.ServesAlike R) R tx') :
    Agree R (fun left right => left.1 = right.1 ∧ left.2.Alike (Store.ServesAlike R) R right.2)
      (a.runTransaction tx) (b.runTransaction tx') :=
  htx.runOn h fun key _ => h.write false (.delete key)

/-! ### Scripts -/

mutual

/-- A script has the same outcome on stores that serve it alike, and does the same to their states. -/
theorem Script.run_agree : ∀ (script : Script) {a : Store σ} {b : Store τ}, a.ServesAlike R b →
    CallsAgree R Eq (script.run a) (script.run b)
  | .finish outcome, a, b, _ => by
    rw [Script.run, Script.run]
    exact .ofExcept outcome
  | .get key next, a, b, h => by
    rw [Script.run, Script.run]
    refine .bind (.ofState (h.get key).attempt) ?_
    rintro answer _ rfl
    exact Script.run_agree (next answer) h
  | .has key next, a, b, h => by
    rw [Script.run, Script.run]
    refine .bind (.ofState (h.has key).attempt) ?_
    rintro answer _ rfl
    exact Script.run_agree (next answer) h
  | .write sync op next, a, b, h => by
    rw [Script.run, Script.run]
    refine .bind (.ofState (h.write sync op).attempt) ?_
    rintro answer _ rfl
    exact Script.run_agree (next answer) h
  | .scan direction bounds next, a, b, h => by
    rw [Script.run, Script.run]
    refine .bind (.ofState (h.scan direction bounds).attempt) ?_
    rintro answer _ rfl
    exact Script.run_agree (next answer) h
  | .batch sync ops next, a, b, h => by
    rw [Script.run, Script.run]
    refine .bind (.ofState (h.writeBatch sync ops).attempt) ?_
    rintro answer _ rfl
    exact Script.run_agree (next answer) h
  | .transaction steps next, a, b, h => by
    rw [Script.run, Script.run]
    refine .bind (.ofState (h.runTransaction ⟨ScriptSteps.toList_alike steps, rfl⟩)) ?_
    rintro ⟨outcome, _⟩ ⟨_, _⟩ ⟨rfl, -⟩
    exact Script.run_agree (next outcome) h

/-- The steps that a script runs make agreeing calls on such stores. -/
theorem ScriptSteps.toList_alike : ∀ steps : ScriptSteps,
    List.Forall₂ (TransactionStep.Alike (Store.ServesAlike R) R) (steps.toList (σ := σ))
      (steps.toList (σ := τ))
  | .nil => .nil
  | .cons _ script rest =>
    .cons ⟨rfl, fun h => Script.run_agree script h⟩ (ScriptSteps.toList_alike rest)

end

/-! ### Transactions of scripts -/

namespace Transaction

/-- The transactions run alike on stores that serve them alike, whatever relation of their states is
kept. -/
def AlwaysAlike (a : Transaction (Store σ) σ) (b : Transaction (Store τ) τ) : Prop :=
  ∀ R : σ → τ → Prop, a.Alike (Store.ServesAlike R) R b

variable {tx : Transaction (Store σ) σ} {tx' : Transaction (Store τ) τ}

theorem alwaysAlike_empty :
    AlwaysAlike (empty : Transaction (Store σ) σ) (empty : Transaction (Store τ) τ) :=
  fun _ => alike_empty

theorem AlwaysAlike.state_eq (h : tx.AlwaysAlike tx') : tx.state = tx'.state :=
  (h fun _ _ => True).state

theorem AlwaysAlike.size_eq (h : tx.AlwaysAlike tx') : tx.size = tx'.size :=
  (h fun _ _ => True).size_eq

/-- A run leaves transactions that run alike for every relation, not only for the one that it keeps: no
step is left unless there was nothing to run. -/
theorem AlwaysAlike.runTransaction (htx : tx.AlwaysAlike tx') {a : Store σ} {b : Store τ}
    (h : a.ServesAlike R b) :
    Agree R (fun left right => left.1 = right.1 ∧ left.2.AlwaysAlike right.2)
      (a.runTransaction tx) (b.runTransaction tx') := by
  intro s t hR
  obtain ⟨⟨houtcome, hafter⟩, hstate⟩ := h.runTransaction (htx R) s t hR
  refine ⟨⟨houtcome, fun R' => ⟨?_, hafter.state⟩⟩, hstate⟩
  rw [Store.runTransaction, Store.runTransaction, steps_runOn, steps_runOn, htx.state_eq]
  by_cases hpending : tx'.state = .pending
  · rw [if_pos hpending, if_pos hpending]
    exact .nil
  · rw [if_neg hpending, if_neg hpending]
    exact (htx R').steps

end Transaction

end OrderedStore
