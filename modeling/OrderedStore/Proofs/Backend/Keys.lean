import OrderedStore.Proofs.Backend.Clean
import OrderedStore.Proofs.Backend.Recorded
import OrderedStore.Proofs.Contents

/-!
# The calls that reach an engine

A store over an engine makes no call with an empty key or an empty bound, and applies operations as one only
if the engine can.  What the engine keeps in all other calls is therefore kept by the store, whatever fails.

* `Engine.Accepts` says which calls are meant for an engine, `Engine.make` makes a call.
* `Engine.Keeps` says that calls keep a property of the state; `Engine.Keeps.store_alike` says that then the
  store keeps it.
* `Engine.Makes` says that a call on the store comes to a single call on the engine.
-/

namespace OrderedStore

open StoreM

variable {σ α β : Type}

theorem StoreM.run_map (f : α → β) (call : StoreM σ α) (state : σ) :
    (f <$> call).run.run state = ((call.run.run state).1.map f, (call.run.run state).2) := by
  rw [map_eq_pure_bind]
  rcases hcall : call.run.run state with ⟨error | a, after⟩
  · exact run_bind_of_error hcall
  · exact run_bind_of_ok hcall

/-- The keys that a call writes. -/
def EngineCall.written : EngineCall → List Bytes
  | write _ op => [op.key]
  | applyAll _ ops => ops.map Operation.key
  | _ => []

/-- A call that settles leaves a key as it is if its change does. -/
theorem StoreM.Settles.get?_eq {call : StoreM σ α} {read : σ → Contents} {change : Contents → Contents}
    (h : Settles (fun state contents => read state = contents) call change) {key : Bytes}
    (hchange : ∀ contents, (change contents).get? key = contents.get? key) (state : σ) :
    (read (call.run.run state).2).get? key = (read state).get? key := by
  have hcall := h state (read state) rfl
  rcases hrun : call.run.run state with ⟨error | a, after⟩
  · rw [hrun] at hcall
    exact congrArg (Contents.get? · key) hcall
  · rw [hrun] at hcall
    exact (congrArg (Contents.get? · key) hcall).trans (hchange _)

namespace Engine

variable {engine : Engine σ} {key : Bytes} {bounds : Bounds} {call : EngineCall}

/-! ### Calls of the store -/

theorem store_get_of_ne_nil (engine : Engine σ) (h : key ≠ []) : engine.store.get key = engine.get key := by
  show (ofExcept (requireKey key) >>= fun _ => engine.get key) = _
  rw [requireKey_of_ne_nil h]
  rfl

theorem points_write_of_eq_nil (engine : Engine σ) {op : Operation} (h : op.key = []) (sync : Bool) :
    engine.points.write sync op = throw .emptyKey := by
  show (StoreM.ofExcept (requireKey op.key) >>= fun _ => engine.write sync op) = _
  rw [h]
  rfl

theorem store_iterator_of_hasEmpty (engine : Engine σ) (h : bounds.hasEmpty = true)
    (direction : Direction) : engine.store.iterator direction bounds = throw .emptyKey := by
  show (StoreM.ofExcept (requireBounds bounds) >>= _) = _
  rw [requireBounds_of_hasEmpty h]
  rfl

theorem store_has_of_ne_nil (engine : Engine σ) (h : key ≠ []) :
    engine.store.has key = Option.isSome <$> engine.get key := by
  show (ofExcept (requireKey key) >>= _) = _
  rw [requireKey_of_ne_nil h]
  rfl

theorem store_iterator_of_hasEmpty_eq_false (engine : Engine σ) (h : bounds.hasEmpty = false)
    (direction : Direction) :
    engine.store.iterator direction bounds =
      Iterator.ofItems bounds <$> engine.cursor direction bounds := by
  show (ofExcept (requireBounds bounds) >>= _) = _
  rw [requireBounds_of_hasEmpty_eq_false h]
  rfl

/-! ### Calls of the engine -/

/-- The calls that are meant for the engine: keys and present bounds are not empty, and operations are
applied as one only if the engine can. -/
def Accepts (engine : Engine σ) : EngineCall → Prop
  | .get key => key ≠ []
  | .write _ op => op.key ≠ []
  | .cursor _ bounds => bounds.hasEmpty = false
  | .applyAll _ ops => engine.atomic = true ∧ ∀ op ∈ ops, op.key ≠ []
  | .close => True

/-- Makes a call and drops what it answers. -/
def make (engine : Engine σ) : EngineCall → StoreM σ Unit
  | .get key => (fun _ => ()) <$> engine.get key
  | .write sync op => engine.write sync op
  | .cursor direction bounds => (fun _ => ()) <$> engine.cursor direction bounds
  | .applyAll sync ops => engine.applyAll sync ops
  | .close => engine.close

/-! ### Properties that are kept -/

/-- The calls that are meant for the engine keep a property of its state, whatever becomes of them. -/
def Keeps (engine : Engine σ) (I : σ → Prop) : Prop :=
  ∀ call, engine.Accepts call → ∀ state, I state → I ((engine.make call).run.run state).2

namespace Keeps

variable {I : σ → Prop}

theorem get (h : engine.Keeps I) (hkey : key ≠ []) :
    CallsAgree (Same I) Eq (engine.get key) (engine.get key) := by
  refine .same (fun _ => rfl) fun state hs => ?_
  have hmake := h (.get key) hkey state hs
  rwa [make, run_map] at hmake

theorem write (h : engine.Keeps I) (sync : Bool) (op : Operation) :
    CallsAgree (Same I) Eq (engine.points.write sync op) (engine.points.write sync op) := by
  by_cases hkey : op.key = []
  · rw [points_write_of_eq_nil engine hkey]
    exact .throw _
  · rw [points_write_of_ne_nil hkey]
    exact .same (fun _ => rfl) fun state hs => h (.write sync op) hkey state hs

theorem applyBatch (h : engine.Keeps I) (sync : Bool) {ops : List Operation}
    (hops : ∀ op ∈ ops, op.key ≠ []) :
    CallsAgree (Same I) Eq (engine.applyBatch sync ops) (engine.applyBatch sync ops) :=
  applyBatch_agree rfl sync
    (fun hatomic => .same (fun _ => rfl) fun state hs => h (.applyAll sync ops) ⟨hatomic, hops⟩ state hs)
    fun sync op _ => h.write sync op

theorem close (h : engine.Keeps I) : CallsAgree (Same I) Eq engine.close engine.close :=
  .same (fun _ => rfl) fun state hs => h .close trivial state hs

/-- The store keeps what the engine keeps. -/
theorem store_alike (h : engine.Keeps I) : engine.store.Alike (Same I) engine.store where
  get key := by
    by_cases hkey : key = []
    · rw [hkey]
      exact .throw _
    · rw [store_get_of_ne_nil engine hkey]
      exact h.get hkey
  has key := by
    by_cases hkey : key = []
    · rw [hkey]
      exact .throw _
    · rw [store_has_of_ne_nil engine hkey]
      exact (h.get hkey).map fun _ _ => congrArg Option.isSome
  write := h.write
  iterator direction bounds := by
    cases hbounds : bounds.hasEmpty with
    | true =>
      rw [store_iterator_of_hasEmpty engine hbounds]
      exact .throw _
    | false =>
      rw [store_iterator_of_hasEmpty_eq_false engine hbounds]
      refine .same Iterator.Alike.refl fun state hs => ?_
      have hmake := h (.cursor direction bounds) hbounds state hs
      rw [make, run_map] at hmake
      rwa [run_map]
  newBatch := .pure <| Batch.alike_queued (fun sync _ hops => h.applyBatch sync hops)
    WriteQueue.hasKeys_empty

end Keeps

/-! ### Single calls -/

/-- The call on a store comes to one call on the engine below it, which is put down in the record. -/
def Makes (engine : Engine σ) (call : EngineCall) (storeCall : StoreM (σ × List EngineCall) α) : Prop :=
  ∀ state calls, ∃ outcome : Except StoreError α,
    storeCall.run.run (state, calls) =
        (outcome, (((engine.make call).run.run state).2, calls ++ [call])) ∧
      outcome.map (fun _ => ()) = ((engine.make call).run.run state).1

theorem makes_marked {storeCall : StoreM σ α} (h : engine.make call = (fun _ => ()) <$> storeCall) :
    engine.Makes call (storeCall.marked call) := by
  intro state calls
  rw [h, run_map]
  exact ⟨_, run_marked call rfl calls, rfl⟩

theorem Makes.map {storeCall : StoreM (σ × List EngineCall) α} (h : engine.Makes call storeCall)
    (f : α → β) : engine.Makes call (f <$> storeCall) := by
  intro state calls
  obtain ⟨outcome, hrun, houtcome⟩ := h state calls
  refine ⟨outcome.map f, ?_, ?_⟩
  · rw [run_map, hrun]
  · rw [← houtcome]
    cases outcome <;> rfl

theorem makes_get (engine : Engine σ) (h : key ≠ []) :
    engine.Makes (.get key) (engine.recorded.store.get key) := by
  rw [store_get_of_ne_nil _ h]
  exact makes_marked rfl

theorem makes_has (engine : Engine σ) (h : key ≠ []) :
    engine.Makes (.get key) (engine.recorded.store.has key) := by
  rw [store_has_of_ne_nil _ h]
  exact (makes_marked rfl).map Option.isSome

theorem makes_write (engine : Engine σ) {op : Operation} (h : op.key ≠ []) (sync : Bool) :
    engine.Makes (.write sync op) (engine.recorded.store.write sync op) := by
  show engine.Makes _ (engine.recorded.points.write sync op)
  rw [points_write_of_ne_nil h]
  exact makes_marked (id_map (engine.write sync op)).symm

theorem makes_iterator (engine : Engine σ) (h : bounds.hasEmpty = false) (direction : Direction) :
    engine.Makes (.cursor direction bounds) (engine.recorded.store.iterator direction bounds) := by
  rw [store_iterator_of_hasEmpty_eq_false _ h]
  exact (makes_marked rfl).map (Iterator.ofItems bounds)

/-! ### The record -/

theorem run_recorded_make (engine : Engine σ) (call : EngineCall) (state : σ) (calls : List EngineCall) :
    ((engine.recorded.make call).run.run (state, calls)).2 =
      (((engine.make call).run.run state).2, calls ++ [call]) := by
  cases call with
  | get key => rw [make, make, run_map, run_map]; rfl
  | cursor direction bounds => rw [make, make, run_map, run_map]; rfl
  | write sync op => rfl
  | applyAll sync ops => rfl
  | close => rfl

/-- The record holds only calls that are meant for the engine. -/
theorem recorded_keeps_accepted (engine : Engine σ) :
    engine.recorded.Keeps fun recorded => ∀ call ∈ recorded.2, engine.Accepts call := by
  rintro call hcall ⟨state, calls⟩ hs
  rw [run_recorded_make]
  intro made hmade
  rcases List.mem_append.1 hmade with hold | hnew
  · exact hs made hold
  · obtain rfl := List.mem_singleton.1 hnew
    cases made <;> exact hcall

/-! ### Stored keys -/

/-- Whatever becomes of the calls that are meant for the engine, it stores no key that they do not write. -/
def StoresOnlyWritten (engine : Engine σ) (stored : σ → Bytes → Prop) : Prop :=
  ∀ call, engine.Accepts call → ∀ state key, stored ((engine.make call).run.run state).2 key →
    stored state key ∨ key ∈ call.written

theorem Accepts.nil_notMem_written (h : engine.Accepts call) : [] ∉ call.written := by
  cases call with
  | write sync op =>
    intro hmem
    exact h (List.mem_singleton.1 hmem).symm
  | applyAll sync ops =>
    intro hmem
    obtain ⟨op, hop, hkey⟩ := List.mem_map.1 hmem
    exact h.2 op hop hkey
  | get key => exact List.not_mem_nil
  | cursor direction bounds => exact List.not_mem_nil
  | close => exact List.not_mem_nil

/-- An engine that does not store the empty key does not come to store it. -/
theorem StoresOnlyWritten.keeps {stored : σ → Bytes → Prop} (h : engine.StoresOnlyWritten stored) :
    engine.Keeps fun state => ¬ stored state [] := by
  intro call hcall state hs hafter
  rcases h call hcall state [] hafter with hold | hnew
  · exact hs hold
  · exact Accepts.nil_notMem_written hcall hnew

/-- An engine whose failures are clean stores only what it is asked to write. -/
theorem FailsCleanly.storesOnlyWritten {read : σ → Contents}
    (h : engine.FailsCleanly fun state contents => read state = contents)
    (hclose : Settles (fun state contents => read state = contents) engine.close id) :
    engine.StoresOnlyWritten fun state key => (read state).get? key ≠ none := by
  intro call hcall state key hstored
  by_cases hwritten : key ∈ call.written
  · exact .inr hwritten
  · refine .inl fun hnone => hstored ?_
    rw [← hnone]
    cases call with
    | get asked =>
      rw [make, run_map]
      exact (h.get asked).get?_eq (fun _ => rfl) state
    | write sync op =>
      have hkey : key ≠ op.key := mt List.mem_singleton.2 hwritten
      exact (h.write sync op).get?_eq (fun contents => contents.get?_applyTo_of_ne hkey) state
    | cursor direction bounds =>
      rw [make, run_map]
      exact (h.cursor direction bounds).get?_eq (fun _ => rfl) state
    | applyAll sync ops =>
      exact (h.applyAll hcall.1 sync ops).get?_eq
        (fun contents => contents.get?_foldl_applyTo_of_notMem hwritten) state
    | close => exact hclose.get?_eq (fun _ => rfl) state

end Engine

/-- The scripted engine stores only what it is asked to write, whatever faults are placed. -/
theorem Scripted.storesOnlyWritten (atomic : Bool) :
    (engine atomic).StoresOnlyWritten fun state key => state.contents.get? key ≠ none := by
  have hclose : Settles (fun state contents => Scripted.contents state = contents)
      (receive .close >>= fun _ => pure ()) id := receive_settles .close fun _ _ hs => hs
  rw [bind_pure_unit] at hclose
  exact (failsCleanly atomic).storesOnlyWritten hclose

end OrderedStore
