import OrderedStore.Engine.Disks
import OrderedStore.Session.Basic
import OrderedStore.World

/-!
# Workbenches

A workbench is a session over a world of stores, together with a registry.  Beside the steps of the
session it opens stores of every kind, places faults in scripted engines and reads their records,
and registers creators.

* `WorkbenchStep` is what can be asked, `WorkbenchAnswer` what is answered.
* `Workbench.run` carries out a list of steps.
-/

namespace OrderedStore

/-! ### Creators for the study of registries -/

/-- The creators that can be registered. -/
inductive CreatorKind where
  | memory
  | scripted
  /-- Fails and names the store that was asked for. -/
  | failing
  /-- Opens a memory that holds the name and the directory with which it was asked for. -/
  | probe
  deriving DecidableEq

/-- The map in which a probe keeps what it was asked for. -/
def CreatorKind.probed (name dir : String) : OrderedMap :=
  let (map, _) := OrderedMap.empty.insert ⟨.ofString "name", .ofString name⟩
  (map.insert ⟨.ofString "dir", .ofString (Path.relative dir)⟩).1

/-- The creator of a kind. -/
def CreatorKind.creator : CreatorKind → Creator Disks
  | memory => Creator.memory
  | scripted => fun _ _ => return .scripted false (← .ofState World.addScripted)
  | failing => fun name _ => throw (.backend ("cannot open " ++ name))
  | probe => fun name dir => return .memory (← .ofState (World.addMemory (probed name dir)))

/-! ### Steps -/

/-- The stores that can be opened without a registry. -/
inductive StoreKind where
  | memory
  /-- A memory whose iterators walk all keys, whatever bounds they are given. -/
  | unbounded
  | scripted (atomic : Bool)
  /-- A disk store that cannot be opened again. -/
  | disk
  deriving DecidableEq

/-- A fault of a scripted engine with its text. -/
inductive Fault where
  | atPlace (place : FaultPlace) (text : String)
  /-- An error among the items of every later cursor. -/
  | atItem (index : Nat) (text : String)
  deriving DecidableEq

/-- What can be asked of the scripted engine below a store. -/
inductive EngineRequest where
  | inject (fault : Fault)
  /-- Replaces the items of every later cursor. -/
  | replaceItems (items : List Item)
  | clearFaults
  /-- The calls since the last such request. -/
  | calls

/-- A step of a workbench. -/
inductive WorkbenchStep where
  | session (step : Step)
  | openStore (kind : StoreKind)
  /-- The number of entries of a memory. -/
  | size (store : Nat)
  | onEngine (store : Nat) (request : EngineRequest)
  /-- Starts with a registry that has all creators, or none. -/
  | newRegistry (standard : Bool)
  | register (backend : String) (kind : CreatorKind) (force : Bool)
  | backends
  | openNamed (name backend dir : String)
  | openConfig (text : String)

/-- What a step is answered. -/
inductive WorkbenchAnswer where
  | session (answer : Answer)
  | size (size : Nat) (isEmpty : Bool)
  | calls (calls : List EngineCall)
  | registered (done : Bool)
  /-- The names of the backends that have a creator, and the text of the registry. -/
  | backends (names : List String) (text : String)
  deriving DecidableEq

/-- Why a step has no answer. -/
inductive WorkbenchRefusal where
  | session (refusal : Refusal)
  /-- The text does not describe a configuration. -/
  | badConfig
  deriving DecidableEq

/-! ### Answering -/

/-- A session over a world, with a registry. -/
structure Workbench where
  session : Session Root (World Disks)
  registry : Registry (Creator Disks)

/-- An action of a workbench that may be refused. -/
abbrev WorkbenchM := ExceptT WorkbenchRefusal (StateM Workbench)

namespace Workbench

/-- A workbench without stores and creators. -/
def start : Workbench := ⟨.start (.ofDisks .empty), .empty⟩

/-- Carries out an action of the session. -/
def onSession {α : Type} (action : SessionM Root (World Disks) α) : WorkbenchM α := do
  let bench ← get
  let (outcome, session) := action.run bench.session
  set { bench with session }
  match outcome with
  | .ok answer => pure answer
  | .error refusal => throw (.session refusal)

/-- Opens a store and makes a handle on it. -/
def addStore (opening : StoreM (World Disks) Root) : WorkbenchM WorkbenchAnswer :=
  onSession do return .session (← Session.addHandle (.root (← Session.call opening)))

/-- Opens a store of a kind. -/
def opening : StoreKind → StoreM (World Disks) Root
  | .memory => return .memory (← .ofState (World.addMemory .empty))
  | .unbounded => return .unbounded (← .ofState (World.addMemory .empty))
  | .scripted atomic => return .scripted atomic (← .ofState World.addScripted)
  | .disk => return .disk (← World.addDisk Disks.sled)

/-- The opened store of a handle; a view is none. -/
def rootOf (store : Nat) : WorkbenchM Root := do
  match ← onSession (Session.lookup (← getThe Workbench).session.handles store) with
  | .root root => pure root
  | .view _ _ => throw (.session .unknown)

/-- Acts on the scripted engine below a store. -/
def onScripted {α : Type} (store : Nat) (action : StateM Scripted α) : WorkbenchM α := do
  match ← rootOf store with
  | .scripted _ index => onSession (Session.onState ((World.scriptedPart index).stateM action))
  | _ => throw (.session .unknown)

/-- Answers a request to a scripted engine. -/
def onEngine (store : Nat) : EngineRequest → WorkbenchM WorkbenchAnswer
  | .inject (.atPlace place text) => do
    onScripted store (modify fun engine => engine.placeFault place text)
    return .session .done
  | .inject (.atItem index text) => do
    onScripted store (modify fun engine => engine.placeItemFault index text)
    return .session .done
  | .replaceItems items => do
    onScripted store (modify fun engine => engine.replaceItems items)
    return .session .done
  | .clearFaults => do
    onScripted store (modify Scripted.clearFaults)
    return .session .done
  | .calls => do return .calls (← onScripted store (modifyGet Scripted.takeCalls))

/-- The backend of a name. -/
def backendOf (name : String) : WorkbenchM Backend :=
  onSession (Session.call (.ofExcept (Backend.ofName name)))

/-- Carries out a step. -/
def answer : WorkbenchStep → WorkbenchM WorkbenchAnswer
  | .session step => do
    return .session (← onSession (Session.answer (World.store Disks.sled) step))
  | .openStore kind => addStore (opening kind)
  | .size store => do
    match ← rootOf store with
    | .memory index =>
      let map := (World.memoryPart index).read (← getThe Workbench).session.state
      return .size map.size map.isEmpty
    | _ => throw (.session .unknown)
  | .onEngine store request => onEngine store request
  | .newRegistry standard => do
    modify fun bench => { bench with registry := if standard then .standard Disks.sled else .empty }
    return .session .done
  | .register backend kind force => do
    let backend ← backendOf backend
    let (registry, done) := (← getThe Workbench).registry.register backend kind.creator force
    modify fun bench => { bench with registry }
    return .registered done
  | .backends => do
    let registry := (← getThe Workbench).registry
    return .backends (registry.backends.map Backend.name) registry.render
  | .openNamed name backend dir => do
    let backend ← backendOf backend
    addStore ((← getThe Workbench).registry.openStore ⟨name, backend, dir⟩)
  | .openConfig text => do
    match Config.read? .strict text with
    | none => throw .badConfig
    | some config => addStore ((← getThe Workbench).registry.openStore config)

/-- The answers of a list of steps, and the workbench after them. -/
def run (bench : Workbench) :
    List WorkbenchStep → List (Except WorkbenchRefusal WorkbenchAnswer) × Workbench
  | [] => ([], bench)
  | step :: steps =>
    let (first, bench) := (answer step).run bench
    let (answers, bench) := bench.run steps
    (first :: answers, bench)

end Workbench

end OrderedStore
