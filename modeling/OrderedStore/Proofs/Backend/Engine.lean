import OrderedStore.Proofs.Backend.Reference
import OrderedStore.Proofs.Simulation.Transaction

/-!
# Stores over engines

An engine that acts as a sorted map makes a store that cannot be told apart from sorted contents,
whether or not it applies batches as one.

* `Engine.ActsAs` is what is asked of the engine.
* `Iterator.alike_ofItems` compares cursors with snapshots.
* `Engine.applyBatch_agree` compares what batches do on two engines, `Engine.applyBatch_yields` says that
  they are applied in order.
* `Engine.store_alike` compares the store over the engine with the reference.
-/

namespace OrderedStore

variable {σ α β : Type} {holds : σ → Contents → Prop}

/-! ### Calls that do not fail -/

/-- In a state that holds contents the call answers `answer` of them, and holds `change` of them
afterwards. -/
def StoreM.Yields (holds : σ → Contents → Prop) (call : StoreM σ α) (answer : Contents → α)
    (change : Contents → Contents) : Prop :=
  ∀ state contents, holds state contents →
    ∃ after, call.run.run state = (.ok (answer contents), after) ∧ holds after (change contents)

/-- The engine acts as a sorted map: reading and writing never fail, a cursor shows the entries of
its range as they are when it is opened, and operations are applied in order. -/
structure Engine.ActsAs (engine : Engine σ) (holds : σ → Contents → Prop) : Prop where
  get : ∀ key, StoreM.Yields holds (engine.get key) (fun contents => contents.get? key) id
  write : ∀ sync op, StoreM.Yields holds (engine.write sync op) (fun _ => ())
    fun contents => contents.applyTo op
  cursor : ∀ direction bounds, StoreM.Yields holds (engine.cursor direction bounds)
    (fun contents => (contents.range direction bounds).map .ok) id
  applyAll : engine.atomic = true → ∀ sync ops, StoreM.Yields holds (engine.applyAll sync ops)
    (fun _ => ()) fun contents => ops.foldl Contents.applyTo contents

/-- A call that yields what another one answers agrees with it. -/
theorem StoreM.Yields.agree {P : α → β → Prop} {call : StoreM σ α} {answer : Contents → α}
    {change : Contents → Contents} (h : Yields holds call answer change) {call' : StoreM Contents β}
    {answer' : Contents → β}
    (hcall' : ∀ contents, call'.run.run contents = (.ok (answer' contents), change contents))
    (hP : ∀ contents, P (answer contents) (answer' contents)) : CallsAgree holds P call call' := by
  intro state contents hs
  obtain ⟨after, hrun, hafter⟩ := h state contents hs
  rw [hrun, hcall']
  exact ⟨.ok (hP contents), hafter⟩

/-- A call behind one that yields its answer. -/
theorem StoreM.Yields.bind {call : StoreM σ α} {answer : Contents → α} {change : Contents → Contents}
    (h : Yields holds call answer change) {next : α → StoreM σ β} {answer' : Contents → β}
    {change' : Contents → Contents}
    (hnext : ∀ state contents, holds state (change contents) →
      ∃ after, (next (answer contents)).run.run state = (.ok (answer' contents), after) ∧
        holds after (change' contents)) : Yields holds (call >>= next) answer' change' := by
  intro state contents hs
  obtain ⟨between, hrun, hbetween⟩ := h state contents hs
  obtain ⟨after, hrun', hafter⟩ := hnext between contents hbetween
  exact ⟨after, (run_bind_of_ok hrun).trans hrun', hafter⟩

/-! ### Cursors -/

theorem Iterator.draw_map_ok {bounds : Bounds} {entries : List Entry}
    (h : ∀ e ∈ entries, bounds.contains e.key = true) (failure : Option StoreError) :
    draw bounds failure (entries.map .ok) =
      cursor bounds entries.head? (entries.tail.map .ok) failure := by
  cases entries with
  | nil => rfl
  | cons entry entries => rw [List.map_cons, draw, if_pos (h entry List.mem_cons_self)]; rfl

/-- A cursor over entries within its bounds shows what a snapshot of them does. -/
theorem Iterator.alike_ofItems {bounds : Bounds} {entries : List Entry}
    (h : ∀ e ∈ entries, bounds.contains e.key = true) :
    Alike (ofItems bounds (entries.map .ok)) (snapshot bounds entries) := by
  -- A cursor holds the entry on which it stands apart from the items behind it.
  refine ⟨fun a b => ∃ entries : List Entry, (∀ e ∈ entries, bounds.contains e.key = true) ∧
    a = cursor bounds entries.head? (entries.tail.map .ok) none ∧ b = snapshot bounds entries,
    ⟨?_, ?_, ?_, ?_, ?_⟩, entries, h, draw_map_ok h none, rfl⟩
  · rintro _ _ ⟨entries, -, rfl, rfl⟩
    rfl
  · rintro _ _ ⟨entries, -, rfl, rfl⟩
    rfl
  · rintro _ _ ⟨entries, -, rfl, rfl⟩
    rfl
  · rintro _ _ ⟨entries, h, rfl, rfl⟩ -
    have htail : ∀ e ∈ entries.tail, bounds.contains e.key = true := fun e he =>
      h e (List.mem_of_mem_tail he)
    exact ⟨entries.tail, htail, draw_map_ok htail none, rfl⟩
  · rintro _ _ ⟨entries, -, rfl, rfl⟩
    exact ⟨[], fun _ he => (List.not_mem_nil he).elim, rfl, rfl⟩

/-! ### Batches -/

namespace Engine

variable {engine : Engine σ}

theorem points_write_of_ne_nil {op : Operation} (h : op.key ≠ []) (sync : Bool) :
    engine.points.write sync op = engine.write sync op := by
  show (StoreM.ofExcept (requireKey op.key) >>= fun _ => engine.write sync op) = _
  rw [requireKey_of_ne_nil h]
  rfl

/-- A batch is applied alike by engines that agree in applying it as one, or in writing its keys. -/
theorem applyBatch_agree {τ : Type} {engine' : Engine τ} {R : σ → τ → Prop}
    (hatomic : engine.atomic = engine'.atomic) (sync : Bool) {ops : List Operation}
    (hall : engine.atomic = true →
      CallsAgree R Eq (engine.applyAll sync ops) (engine'.applyAll sync ops))
    (hwrite : ∀ sync op, op.key ∈ ops.map Operation.key →
      CallsAgree R Eq (engine.points.write sync op) (engine'.points.write sync op)) :
    CallsAgree R Eq (engine.applyBatch sync ops) (engine'.applyBatch sync ops) := by
  rw [applyBatch, applyBatch, ← hatomic]
  by_cases hone : engine.atomic = true
  · rw [if_pos hone, if_pos hone]
    exact hall hone
  · rw [if_neg hone, if_neg hone]
    have hsteps : (transactionOf sync ops).Alike
        (fun points points' => points = engine.points ∧ points' = engine'.points) R
        (transactionOf sync ops) := by
      refine ⟨List.forall₂_map_left_iff.2 (List.forall₂_map_right_iff.2 (List.forall₂_same.2 ?_)), rfl⟩
      intro op hop
      refine ⟨rfl, ?_⟩
      rintro _ _ ⟨rfl, rfl⟩
      exact hwrite sync op (List.mem_map_of_mem hop)
    -- Only keys of the batch are deleted when it is undone.
    refine .bind (.ofState (hsteps.runOn ⟨rfl, rfl⟩ fun key hkey => hwrite false (.delete key) ?_)) ?_
    · rw [transactionOf, Transaction.ofSteps, List.map_map] at hkey
      exact hkey
    · rintro ⟨outcome, _⟩ ⟨_, _⟩ ⟨rfl, -⟩
      exact .ofExcept outcome

/-- The writes of a batch are all made, one after the other. -/
theorem ActsAs.runAll (h : engine.ActsAs holds) (sync : Bool) {ops : List Operation}
    (hops : ∀ op ∈ ops, op.key ≠ []) (applied : List Bytes) {state : σ} {contents : Contents}
    (hs : holds state contents) :
    ∃ applied' after, (TransactionStep.runAll engine.points (transactionOf sync ops).steps
        applied).run state = ((applied', none), after) ∧
      holds after (ops.foldl Contents.applyTo contents) := by
  induction ops generalizing applied state contents with
  | nil => exact ⟨applied, state, rfl, hs⟩
  | cons op ops ih =>
    obtain ⟨hop, hrest⟩ := List.forall_mem_cons.1 hops
    obtain ⟨next, hrun, hnext⟩ := h.write sync op state contents hs
    obtain ⟨applied', after, hruns, hafter⟩ := ih hrest (op.key :: applied) hnext
    -- The key is not empty, so the write reaches the engine.
    rw [← points_write_of_ne_nil hop sync] at hrun
    exact ⟨applied', after, (TransactionStep.runAll_cons_of_ok hrun _ applied).trans hruns, hafter⟩

/-- A batch is applied in order, as one or as a transaction that commits. -/
theorem ActsAs.applyBatch_yields (h : engine.ActsAs holds) (sync : Bool) {ops : List Operation}
    (hops : ∀ op ∈ ops, op.key ≠ []) :
    StoreM.Yields holds (engine.applyBatch sync ops) (fun _ => ())
      fun contents => ops.foldl Contents.applyTo contents := by
  rw [applyBatch]
  by_cases hatomic : engine.atomic = true
  · rw [if_pos hatomic]
    exact h.applyAll hatomic sync ops
  · rw [if_neg hatomic]
    intro state contents hs
    obtain ⟨applied, after, hrun, hafter⟩ := h.runAll sync hops [] hs
    refine ⟨after, ?_, hafter⟩
    rw [StoreM.run_bind_ofState, Transaction.runOn_of_runAll_eq_none _ rfl hrun]
    rfl

/-- The store over an engine that acts as a sorted map cannot be told apart from sorted contents. -/
theorem ActsAs.store_alike (h : engine.ActsAs holds) : engine.store.Alike holds Contents.store where
  get key := .bind (.ofExcept _) fun _ _ _ => (h.get key).agree (fun _ => rfl) fun _ => rfl
  has key := by
    refine .bind (.ofExcept _) ?_
    intro _ _ _
    refine .bind (Q := Eq) (P := fun value contents => value = Contents.get? contents key)
      ((h.get key).agree (fun _ => rfl) fun _ => rfl) ?_
    rintro _ contents rfl
    exact .pure rfl
  write sync op :=
    .bind (.ofExcept _) fun _ _ _ => (h.write sync op).agree (fun _ => rfl) fun _ => rfl
  iterator direction bounds := by
    refine .bind (.ofExcept _) ?_
    intro _ _ _
    refine .bind
      (P := fun items contents => items = (Contents.range contents direction bounds).map .ok)
      ((h.cursor direction bounds).agree (fun _ => rfl) fun _ => rfl) ?_
    rintro _ contents rfl
    exact .pure (Iterator.alike_ofItems fun _ he => (Contents.mem_range_iff.1 he).2)
  newBatch :=
    .pure <| Batch.alike_queued (fun sync _ hops => (h.applyBatch_yields sync hops).agree
      (fun _ => rfl) fun _ => rfl) WriteQueue.hasKeys_empty

end Engine

end OrderedStore
