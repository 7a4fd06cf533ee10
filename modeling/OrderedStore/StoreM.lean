import OrderedStore.StoreError

/-!
# Calls on a store

`StoreM σ` is the effect of a call on a store whose state is `σ`: it reads and changes the state
and may fail.  A failing call keeps the changes that it made before it failed.
-/

namespace OrderedStore

/-- A call that acts on a state `σ` and may fail; the state survives a failure. -/
abbrev StoreM (σ : Type) := ExceptT StoreError (StateM σ)

namespace StoreM

variable {σ τ α : Type}

/-- A call that only succeeds or fails. -/
def ofExcept (outcome : Except StoreError α) : StoreM σ α := ExceptT.mk (pure outcome)

/-- A call that cannot fail. -/
def ofState (action : StateM σ α) : StoreM σ α := ExceptT.lift action

/-- The outcome of a call as a value; the attempt itself does not fail. -/
def attempt (call : StoreM σ α) : StateM σ (Except StoreError α) := call.run

/-! ### Runs -/

variable {ε β : Type}

theorem run_get (s : σ) : (getThe σ : ExceptT ε (StateM σ) σ).run.run s = (.ok s, s) := rfl

theorem run_modify (f : σ → σ) (s : σ) :
    (modify f : ExceptT ε (StateM σ) PUnit).run.run s = (.ok ⟨⟩, f s) := rfl

/-- The next action begins where the one before it has ended. -/
theorem run_bind_of_run_eq {action : StateM σ α} {next : α → StateM σ β} {s s' : σ} {a : α}
    (h : action.run s = (a, s')) : (action >>= next).run s = (next a).run s' := by
  rw [StateT.run_bind, h]
  rfl

/-- A call that succeeds is followed by the next one. -/
theorem run_bind_of_ok {call : ExceptT ε (StateM σ) α} {next : α → ExceptT ε (StateM σ) β}
    {s s' : σ} {a : α} (h : call.run.run s = (.ok a, s')) :
    (call >>= next).run.run s = (next a).run.run s' := by
  show (call.run >>= ExceptT.bindCont next).run s = _
  rw [run_bind_of_run_eq h]
  rfl

/-- A call that fails is followed by nothing. -/
theorem run_bind_of_error {call : ExceptT ε (StateM σ) α} {next : α → ExceptT ε (StateM σ) β}
    {s s' : σ} {error : ε} (h : call.run.run s = (.error error, s')) :
    (call >>= next).run.run s = (.error error, s') := by
  show (call.run >>= ExceptT.bindCont next).run s = _
  rw [run_bind_of_run_eq h]
  rfl

/-- Two calls in a row succeed if each of them does. -/
theorem run_bind_eq_ok_iff {call : ExceptT ε (StateM σ) α} {next : α → ExceptT ε (StateM σ) β}
    {s s' : σ} {b : β} :
    (call >>= next).run.run s = (.ok b, s') ↔
      ∃ a between, call.run.run s = (.ok a, between) ∧ (next a).run.run between = (.ok b, s') := by
  constructor
  · intro h
    rcases hcall : call.run.run s with ⟨error | a, between⟩
    · rw [run_bind_of_error hcall] at h
      cases h
    · rw [run_bind_of_ok hcall] at h
      exact ⟨a, between, rfl, h⟩
  · rintro ⟨a, between, hcall, hnext⟩
    rw [run_bind_of_ok hcall, hnext]

theorem run_bind_ofState (action : StateM σ α) (next : α → StoreM σ β) (s : σ) :
    (ofState action >>= next).run.run s =
      (next (action.run s).1).run.run (action.run s).2 := rfl

end StoreM

end OrderedStore
