import OrderedStore.Proofs.Backend.Faultless

/-!
# Backends whose failures are clean

The calls of an engine may fail, may fail again, and may read whatever they like; all that is asked is that
a call which fails changes nothing, and that a write which succeeds writes its key.

* `Engine.FailsCleanly` is what is asked of the engine.
* `Store.FailsCleanly` says that a store is held in memory or is a store over such an engine.
* `Scripted.failsCleanly` says that the scripted engine is one, whatever faults are placed.
-/

namespace OrderedStore

variable {σ α : Type} {holds : σ → Contents → Prop}

/-- In a state that holds contents the call succeeds and changes them by `change`, or fails and changes
nothing.  Nothing is said about its answer. -/
def StoreM.Settles (holds : σ → Contents → Prop) (call : StoreM σ α) (change : Contents → Contents) :
    Prop :=
  ∀ state contents, holds state contents →
    match call.run.run state with
    | (.ok _, after) => holds after (change contents)
    | (.error _, after) => holds after contents

/-- Reads change nothing, writes that succeed are made, and calls that fail change nothing. -/
structure Engine.FailsCleanly (engine : Engine σ) (holds : σ → Contents → Prop) : Prop where
  get : ∀ key, StoreM.Settles holds (engine.get key) id
  write : ∀ sync op, StoreM.Settles holds (engine.write sync op) fun contents => contents.applyTo op
  cursor : ∀ direction bounds, StoreM.Settles holds (engine.cursor direction bounds) id
  applyAll : engine.atomic = true → ∀ sync ops, StoreM.Settles holds (engine.applyAll sync ops)
    fun contents => ops.foldl Contents.applyTo contents

/-- The store is held in memory, or is a store over an engine whose failures are clean. -/
inductive Store.FailsCleanly : {σ : Type} → Store σ → (σ → Contents → Prop) → Prop where
  | memory : FailsCleanly Memory.store OrderedMap.Holds
  | engine {σ : Type} {engine : Engine σ} {holds : σ → Contents → Prop} (h : engine.FailsCleanly holds) :
    FailsCleanly engine.store holds

/-! ### Calls of such stores -/

namespace StoreM

variable {β : Type} {call : StoreM σ α} {change : Contents → Contents}

theorem Settles.of_check (h : Settles holds call change) (check : Except StoreError β) :
    Settles holds (ofExcept check >>= fun _ => call) change := by
  intro state contents hs
  cases check with
  | error error => exact hs
  | ok _ => exact h state contents hs

theorem Settles.map (h : Settles holds call change) (f : α → β) :
    Settles holds (call >>= fun a => pure (f a)) change := by
  intro state contents hs
  have hcall := h state contents hs
  rcases hrun : call.run.run state with ⟨error | a, after⟩
  · rw [run_bind_of_error hrun]
    rwa [hrun] at hcall
  · rw [run_bind_of_ok hrun]
    rwa [hrun] at hcall

end StoreM

namespace Store.FailsCleanly

variable {store : Store σ}

theorem get (h : store.FailsCleanly holds) (key : Bytes) : StoreM.Settles holds (store.get key) id := by
  cases h with
  | memory => exact .of_check (fun _ _ hs => hs) _
  | engine h => exact (h.get key).of_check _

theorem has (h : store.FailsCleanly holds) (key : Bytes) : StoreM.Settles holds (store.has key) id := by
  cases h with
  | memory => exact .of_check (fun _ _ hs => hs) _
  | engine h => exact ((h.get key).map _).of_check _

theorem iterator (h : store.FailsCleanly holds) (direction : Direction) (bounds : Bounds) :
    StoreM.Settles holds (store.iterator direction bounds) id := by
  cases h with
  | memory => exact .of_check (fun _ _ hs => hs) _
  | engine h => exact ((h.cursor direction bounds).map _).of_check _

theorem write (h : store.FailsCleanly holds) (sync : Bool) (op : Operation) :
    StoreM.Settles holds (store.write sync op) fun contents => contents.applyTo op := by
  cases h with
  | memory => exact .of_check (fun _ _ hs => Memory.holds_applyTo hs op) _
  | engine h => exact (h.write sync op).of_check _

end Store.FailsCleanly

/-! ### Calls that do not fail -/

theorem StoreM.Yields.settles {call : StoreM σ α} {answer : Contents → α} {change : Contents → Contents}
    (h : Yields holds call answer change) : Settles holds call change := by
  intro state contents hs
  obtain ⟨after, hrun, hafter⟩ := h state contents hs
  rwa [hrun]

/-- An engine that never fails fails cleanly. -/
theorem Engine.ActsAs.failsCleanly {engine : Engine σ} (h : engine.ActsAs holds) :
    engine.FailsCleanly holds where
  get key := (h.get key).settles
  write sync op := (h.write sync op).settles
  cursor direction bounds := (h.cursor direction bounds).settles
  applyAll hatomic sync ops := (h.applyAll hatomic sync ops).settles

theorem Store.Faultless.failsCleanly {store : Store σ} (h : store.Faultless holds) :
    store.FailsCleanly holds := by
  cases h with
  | memory => exact .memory
  | engine h => exact .engine h.failsCleanly

/-! ### Scripted faults -/

namespace Scripted

/-- A call behind one that is received meets the contents that were there, or is not made. -/
theorem receive_settles (call : EngineCall) {next : StoreM Scripted α} {change : Contents → Contents}
    (hnext : StoreM.Settles (fun state contents => Scripted.contents state = contents) next change) :
    StoreM.Settles (fun state contents => Scripted.contents state = contents)
      (receive call >>= fun _ => next) change := by
  rintro state contents hs
  cases hfault : state.fault? call.place with
  | none =>
    rw [StoreM.run_bind_of_ok (run_receive_of_eq_none hfault)]
    exact hnext _ contents hs
  | some text =>
    rw [StoreM.run_bind_of_error (run_receive_of_eq_some hfault)]
    exact hs

/-- The scripted engine fails cleanly, whatever faults are placed and whatever items are replaced. -/
theorem failsCleanly (atomic : Bool) :
    (engine atomic).FailsCleanly fun state contents => state.contents = contents where
  get _ := receive_settles _ fun _ _ hs => hs
  write _ op := receive_settles _ fun _ _ hs => congrArg (Contents.applyTo · op) hs
  cursor _ _ := receive_settles _ fun _ _ hs => hs
  applyAll _ _ ops := receive_settles _ fun _ _ hs => congrArg (ops.foldl Contents.applyTo ·) hs

end Scripted

end OrderedStore
