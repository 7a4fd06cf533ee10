import OrderedStore.Engine.Scripted
import OrderedStore.Proofs.Backend.Engine

/-!
# Backends without faults

Stores in memory and stores over engines that act as sorted maps.  Engines over sorted contents do so:
always if they are plain, and as long as no fault is placed if their faults are scripted.

* `Store.Faultless` says that a store is one of these.
-/

namespace OrderedStore

/-- The store is held in memory, or is a store over an engine that acts as a sorted map. -/
inductive Store.Faultless : {σ : Type} → Store σ → (σ → Contents → Prop) → Prop where
  | memory : Faultless Memory.store OrderedMap.Holds
  | engine {σ : Type} {engine : Engine σ} {holds : σ → Contents → Prop} (h : engine.ActsAs holds) :
    Faultless engine.store holds

/-- A store without faults cannot be told apart from its contents. -/
theorem Store.Faultless.alike {σ : Type} {store : Store σ} {holds : σ → Contents → Prop}
    (h : store.Faultless holds) : store.Alike holds Contents.store := by
  cases h with
  | memory => exact Memory.store_alike
  | engine h => exact h.store_alike

/-- A plain engine over sorted contents acts as its contents. -/
theorem SortedEngine.actsAs (kind : String) (extra : Stats) : (engine kind extra).ActsAs Eq where
  get key := by
    rintro contents _ rfl
    exact ⟨contents, rfl, rfl⟩
  write sync op := by
    rintro contents _ rfl
    exact ⟨contents.applyTo op, rfl, rfl⟩
  cursor direction bounds := by
    rintro contents _ rfl
    exact ⟨contents, rfl, rfl⟩
  applyAll _ sync ops := by
    rintro contents _ rfl
    exact ⟨ops.foldl Contents.applyTo contents, rfl, rfl⟩

namespace Scripted

theorem run_receive_of_eq_none {call : EngineCall} {state : Scripted}
    (h : state.fault? call.place = none) :
    (receive call).run.run state = (.ok (), { state with record := call :: state.record }) := by
  have hfault : ({ state with record := call :: state.record } : Scripted).fault? call.place = none := h
  rw [receive, StoreM.run_bind_of_ok (StoreM.run_modify _ state),
    StoreM.run_bind_of_ok (StoreM.run_get _), hfault]
  rfl

theorem run_receive_of_eq_some {call : EngineCall} {state : Scripted} {text : String}
    (h : state.fault? call.place = some text) :
    (receive call).run.run state =
      (.error (.backend text), { state with record := call :: state.record }) := by
  have hfault :
      ({ state with record := call :: state.record } : Scripted).fault? call.place = some text := h
  rw [receive, StoreM.run_bind_of_ok (StoreM.run_modify _ state),
    StoreM.run_bind_of_ok (StoreM.run_get _), hfault]
  rfl

/-- No fault is placed, no items are replaced, and the engine has these contents. -/
structure FaultlessWith (state : Scripted) (contents : Contents) : Prop where
  contents_eq : state.contents = contents
  faults : state.faults = []
  itemFault : state.itemFault = none
  items : state.items = none

/-- A call that is received is recorded and changes nothing else. -/
theorem receive_yields (call : EngineCall) :
    StoreM.Yields FaultlessWith (receive call) (fun _ => ()) id := by
  intro state contents h
  have hfault : state.fault? call.place = none := by
    rw [fault?, h.faults]
    rfl
  exact ⟨_, run_receive_of_eq_none hfault, h.1, h.2, h.3, h.4⟩

theorem FaultlessWith.update {state : Scripted} {contents : Contents}
    (h : state.FaultlessWith contents) (change : Contents → Contents) :
    ({ state with contents := change state.contents } : Scripted).FaultlessWith (change contents) :=
  ⟨congrArg change h.1, h.2, h.3, h.4⟩

theorem FaultlessWith.cursorItems_eq {state : Scripted} {contents : Contents}
    (h : state.FaultlessWith contents) (direction : Direction) (bounds : Bounds) :
    state.cursorItems direction bounds = (contents.range direction bounds).map .ok := by
  rw [cursorItems, withItemFault, h.itemFault, h.items, h.contents_eq]
  rfl

/-- Without faults the scripted engine acts as its contents. -/
theorem actsAs (atomic : Bool) : (engine atomic).ActsAs FaultlessWith where
  get key := by
    refine (receive_yields _).bind fun state contents h => ⟨state, ?_, h⟩
    have hcontents : state.contents = contents := h.contents_eq
    rw [← hcontents]
    rfl
  write sync op := (receive_yields _).bind fun _ _ h => ⟨_, rfl, h.update fun c => c.applyTo op⟩
  cursor direction bounds := by
    refine (receive_yields _).bind fun state contents h => ⟨state, ?_, h⟩
    have hitems : state.cursorItems direction bounds = (contents.range direction bounds).map .ok :=
      h.cursorItems_eq direction bounds
    rw [← hitems]
    rfl
  applyAll _ sync ops := (receive_yields _).bind fun _ _ h =>
    ⟨_, rfl, h.update fun c => ops.foldl Contents.applyTo c⟩

end Scripted

end OrderedStore
