import OrderedStore.Proofs.Calls
import OrderedStore.Proofs.Simulation.Store

/-!
# Stores whose calls are recorded

The calls that a store receives are put down in a list beside its state, and so are the writes of its
batches.  That changes nothing in what the store does.

* `Store.recorded` is the store with its record.
* `Store.recorded_alike` compares the store with and without the record.
-/

namespace OrderedStore

variable {σ μ α : Type}

/-- A mark is left without any other effect. -/
theorem StoreM.marked_agree (mark : μ) (call : StoreM σ α) {Q : α → α → Prop} (hQ : ∀ a, Q a a) :
    CallsAgree (fun marked state => marked.1 = state) Q (call.marked mark) call := by
  rintro ⟨state, marks⟩ _ rfl
  exact ⟨(sameOutcome_eq_iff.2 rfl).mono fun a _ h => h ▸ hQ a, rfl⟩

/-- A call that a store or one of its batches has received. -/
inductive StoreCall where
  | get (key : Bytes)
  | has (key : Bytes)
  | write (sync : Bool) (op : Operation)
  | iterator (direction : Direction) (bounds : Bounds)
  | newBatch
  | writeBatch (sync : Bool) (ops : List Operation)
  | close

/-! ### Batches -/

namespace Batch

/-- The batch of a store with a record. -/
def recorded : Batch σ → Batch (σ × List StoreCall)
  | queued apply queue => queued (fun sync ops => (apply sync ops).marked (.writeBatch sync ops)) queue
  | view stem source => view stem source.recorded

theorem send_recorded (batch : Batch σ) (request : BatchRequest) :
    (batch.recorded.send request).1 = (batch.send request).1.recorded ∧
      CallsAgree (fun recorded state => recorded.1 = state) Eq (batch.recorded.send request).2
        (batch.send request).2 := by
  induction batch generalizing request with
  | queued apply queue =>
    rw [recorded]
    cases request with
    | push op =>
      rw [send, send]
      cases queue.push op with
      | error error => exact ⟨rfl, .throw error⟩
      | ok after => exact ⟨rfl, .pure rfl⟩
    | write sync =>
      rw [send, send]
      cases queue.take with
      | error error => exact ⟨rfl, .throw error⟩
      | ok taken => exact ⟨rfl, StoreM.marked_agree _ _ fun _ => rfl⟩
    | close => exact ⟨rfl, .pure rfl⟩
  | view stem source ih =>
    rw [recorded, send, send]
    cases request.under stem with
    | error error => exact ⟨rfl, .throw error⟩
    | ok request =>
      obtain ⟨hafter, hcall⟩ := ih request
      exact ⟨congrArg (view stem) hafter, hcall⟩

theorem recorded_alike (batch : Batch σ) :
    batch.recorded.Alike (fun recorded state => recorded.1 = state) batch := by
  refine ⟨fun a b => a = b.recorded, ?_, rfl⟩
  rintro _ batch rfl request
  exact batch.send_recorded request

end Batch

/-! ### Stores -/

namespace Store

/-- The store with a list of the calls that it has received, the latest last. -/
def recorded (store : Store σ) : Store (σ × List StoreCall) where
  get key := (store.get key).marked (.get key)
  has key := (store.has key).marked (.has key)
  write sync op := (store.write sync op).marked (.write sync op)
  iterator direction bounds := (store.iterator direction bounds).marked (.iterator direction bounds)
  newBatch := do
    let (state, calls) ← get
    let (batch, after) := store.newBatch.run state
    set (after, calls ++ [.newBatch])
    return batch.recorded
  stats state := store.stats state.1
  close := store.close.marked .close

/-- A store cannot be told apart from the store with its record. -/
theorem recorded_alike (store : Store σ) :
    store.recorded.Alike (fun recorded state => recorded.1 = state) store where
  get _ := StoreM.marked_agree _ _ fun _ => rfl
  has _ := StoreM.marked_agree _ _ fun _ => rfl
  write _ _ := StoreM.marked_agree _ _ fun _ => rfl
  iterator _ _ := StoreM.marked_agree _ _ Iterator.Alike.refl
  newBatch := by
    rintro ⟨state, calls⟩ _ rfl
    exact ⟨Batch.recorded_alike _, rfl⟩

end Store

end OrderedStore
