import OrderedStore.Proofs.Simulation.Agree
import OrderedStore.Transaction

/-!
# Transactions that run alike

Transactions whose steps make agreeing calls on agreeing targets have the same outcome: they stop at
the same step, undo the same keys and report the same error.

* `Transaction.Alike` compares the steps, `Transaction.Alike.runOn` the runs.
-/

namespace OrderedStore

variable {σ τ δ δ' : Type} {R : σ → τ → Prop} {D : δ → δ' → Prop}

/-- The steps have the same key, and make agreeing calls on related targets. -/
structure TransactionStep.Alike (D : δ → δ' → Prop) (R : σ → τ → Prop) (a : TransactionStep δ σ)
    (b : TransactionStep δ' τ) : Prop where
  key : a.key = b.key
  run : ∀ {target target'}, D target target' → CallsAgree R Eq (a.run target) (b.run target')

/-- Alike steps stop alike, and only keys of steps are to be undone. -/
theorem TransactionStep.runAll_agree {target : δ} {target' : δ'} (ht : D target target')
    {steps : List (TransactionStep δ σ)} {steps' : List (TransactionStep δ' τ)}
    (h : List.Forall₂ (TransactionStep.Alike D R) steps steps') (applied : List Bytes) :
    Agree R (fun left right => left = right ∧ ∀ key ∈ left.1,
        key ∈ applied ∨ key ∈ steps.map TransactionStep.key)
      (runAll target steps applied) (runAll target' steps' applied) := by
  induction h generalizing applied with
  | nil => exact Agree.pure ⟨rfl, fun _ => .inl⟩
  | @cons a b as _ hstep _ ih =>
    rw [runAll, runAll]
    refine Agree.bind (hstep.run ht).attempt ?_
    rintro outcome _ rfl
    cases outcome with
    | ok _ =>
      -- The keys to be undone are collected alike on both sides.
      rw [← hstep.key]
      refine (ih (a.key :: applied)).mono fun left right hanswer => ⟨hanswer.1, fun key hkey => ?_⟩
      have hof := hanswer.2 key hkey
      rw [List.mem_cons] at hof
      rw [List.map_cons, List.mem_cons]
      tauto
    | error error => exact Agree.pure ⟨rfl, fun _ => .inl⟩

namespace Transaction

/-- The transactions have come equally far and their steps run alike. -/
structure Alike (D : δ → δ' → Prop) (R : σ → τ → Prop) (a : Transaction δ σ)
    (b : Transaction δ' τ) : Prop where
  steps : List.Forall₂ (TransactionStep.Alike D R) a.steps b.steps
  state : a.state = b.state

theorem Alike.size_eq {a : Transaction δ σ} {b : Transaction δ' τ} (h : Alike D R a b) :
    a.size = b.size :=
  h.steps.length_eq

theorem alike_empty : Alike D R (empty : Transaction δ σ) (empty : Transaction δ' τ) := ⟨.nil, rfl⟩

theorem Alike.append {a : Transaction δ σ} {b : Transaction δ' τ} (h : Alike D R a b)
    {step : TransactionStep δ σ} {step' : TransactionStep δ' τ} (hstep : step.Alike D R step') :
    Alike D R (a.append step) (b.append step') :=
  ⟨List.rel_append h.steps (.cons hstep .nil), h.state⟩

variable {erase : Bytes → StoreM σ Unit} {erase' : Bytes → StoreM τ Unit}

theorem eraseAll_agree {keys : List Bytes}
    (he : ∀ key ∈ keys, CallsAgree R Eq (erase key) (erase' key)) :
    Agree R Eq (eraseAll erase keys) (eraseAll erase' keys) := by
  induction keys with
  | nil => exact Agree.pure rfl
  | cons key keys ih =>
    obtain ⟨hkey, hkeys⟩ := List.forall_mem_cons.1 he
    rw [eraseAll, eraseAll]
    refine Agree.bind hkey.attempt ?_
    rintro outcome _ rfl
    refine Agree.bind (ih hkeys) ?_
    rintro later _ rfl
    cases outcome with
    | ok _ => exact Agree.pure rfl
    | error error => exact Agree.pure rfl

theorem undo_agree {applied : List Bytes}
    (he : ∀ key ∈ applied, CallsAgree R Eq (erase key) (erase' key)) (cause : StoreError) :
    Agree R Eq (undo erase applied cause) (undo erase' applied cause) := by
  refine Agree.bind (eraseAll_agree he) ?_
  rintro failed _ rfl
  cases failed with
  | none => exact Agree.pure rfl
  | some failed => exact Agree.pure rfl

/-- Transactions that run alike have the same outcome, and are alike when they have finished.  Only keys
of their steps are erased. -/
theorem Alike.runOn {a : Transaction δ σ} {b : Transaction δ' τ} (h : Alike D R a b)
    {target : δ} {target' : δ'} (ht : D target target')
    (he : ∀ key ∈ a.steps.map TransactionStep.key, CallsAgree R Eq (erase key) (erase' key)) :
    Agree R (fun left right => left.1 = right.1 ∧ Alike D R left.2 right.2)
      (a.runOn target erase) (b.runOn target' erase') := by
  rw [Transaction.runOn, Transaction.runOn, ← h.state]
  cases a.state with
  | pending =>
    refine Agree.bind (TransactionStep.runAll_agree ht h.steps []) ?_
    rintro ⟨applied, failed⟩ _ ⟨rfl, happlied⟩
    cases failed with
    | none => exact Agree.pure ⟨rfl, .nil, rfl⟩
    | some cause =>
      have hsteps : ∀ key ∈ applied, key ∈ a.steps.map TransactionStep.key := by simpa using happlied
      refine Agree.bind (undo_agree (fun key hkey => he key (hsteps key hkey)) cause) ?_
      rintro error _ rfl
      exact Agree.pure ⟨rfl, .nil, rfl⟩
  | committed => exact Agree.pure ⟨rfl, h⟩
  | rolledBack => exact Agree.pure ⟨rfl, h⟩

/-- A transaction that is run holds no step any more; a finished one stays as it is. -/
theorem steps_runOn (tx : Transaction δ σ) (target : δ) (erase : Bytes → StoreM σ Unit) (state : σ) :
    ((tx.runOn target erase).run state).1.2.steps = if tx.state = .pending then [] else tx.steps := by
  rcases hrun : (TransactionStep.runAll target tx.steps []).run state with ⟨⟨applied, failed⟩, after⟩
  cases hstate : tx.state with
  | pending =>
    simp only [Transaction.runOn, hstate, StateT.run_bind, hrun]
    cases failed <;> rfl
  | committed => simp only [Transaction.runOn, hstate]; rfl
  | rolledBack => simp only [Transaction.runOn, hstate]; rfl

end Transaction

end OrderedStore
