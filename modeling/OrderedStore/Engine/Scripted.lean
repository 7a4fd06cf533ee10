import OrderedStore.Contents
import OrderedStore.Engine.Sorted

/-!
# Engines with scripted faults

An engine over sorted contents for the study of failures.  It records every call, fails where a
fault has been placed, and only then acts.  The items of its cursors can be replaced, whatever
range is asked for.

* `EngineCall` is a recorded call, `FaultPlace` a place where a fault can be put.
* `Scripted.engine` is the engine, with or without batches that are applied as one.
-/

namespace OrderedStore

/-- A call that an engine has received. -/
inductive EngineCall where
  | get (key : Bytes)
  | write (sync : Bool) (op : Operation)
  | cursor (direction : Direction) (bounds : Bounds)
  | applyAll (sync : Bool) (ops : List Operation)
  | close
  deriving DecidableEq

/-- A place where a fault makes a call fail. -/
inductive FaultPlace where
  | get (key : Bytes)
  | put (key : Bytes)
  | remove (key : Bytes)
  | cursorOpen
  | applyAll
  | close
  deriving DecidableEq

/-- The place whose fault a call meets; durability makes no difference. -/
def EngineCall.place : EngineCall → FaultPlace
  | get key => .get key
  | write _ (.set key _) => .put key
  | write _ (.delete key) => .remove key
  | cursor _ _ => .cursorOpen
  | applyAll _ _ => .applyAll
  | close => .close

/-- The state of a scripted engine. -/
structure Scripted where
  contents : Contents
  /-- The faults with their texts, at most one for each place. -/
  faults : List (FaultPlace × String)
  /-- An error among the items of every cursor: its place and its text. -/
  itemFault : Option (Nat × String)
  /-- The items that replace those of every cursor. -/
  items : Option (List Item)
  /-- The calls since the record was last read, the latest first. -/
  record : List EngineCall

namespace Scripted

/-- An engine without entries, faults and recorded calls. -/
def empty : Scripted := ⟨.empty, [], none, none, []⟩

instance : Inhabited Scripted := ⟨empty⟩

/-! ### Faults and records -/

/-- Places a fault, instead of the one that is at this place. -/
def placeFault (state : Scripted) (place : FaultPlace) (text : String) : Scripted :=
  { state with faults := (place, text) :: state.faults.filter fun fault => fault.1 ≠ place }

/-- Puts an error among the items of every later cursor, instead of the one that is there. -/
def placeItemFault (state : Scripted) (index : Nat) (text : String) : Scripted :=
  { state with itemFault := some (index, text) }

/-- Replaces the items of every later cursor. -/
def replaceItems (state : Scripted) (items : List Item) : Scripted :=
  { state with items := some items }

/-- Removes every fault and the replaced items; entries and recorded calls stay. -/
def clearFaults (state : Scripted) : Scripted :=
  { state with faults := [], itemFault := none, items := none }

/-- The recorded calls in order. -/
def calls (state : Scripted) : List EngineCall := state.record.reverse

/-- Hands out the recorded calls and starts a new record. -/
def takeCalls (state : Scripted) : List EngineCall × Scripted :=
  (state.calls, { state with record := [] })

/-- The text of the fault at a place. -/
def fault? (state : Scripted) (place : FaultPlace) : Option String :=
  (state.faults.find? fun fault => fault.1 = place).map Prod.snd

/-! ### The engine -/

/-- Records a call and fails if its place has a fault. -/
def receive (call : EngineCall) : StoreM Scripted Unit := do
  modify fun state => { state with record := call :: state.record }
  match (← getThe Scripted).fault? call.place with
  | none => pure ()
  | some text => throw (.backend text)

/-- The items with the placed error; past the last item it comes at the end. -/
def withItemFault (state : Scripted) (items : List Item) : List Item :=
  match state.itemFault with
  | none => items
  | some (index, text) => items.take index ++ .error (.backend text) :: items.drop index

/-- The items of a cursor. -/
def cursorItems (state : Scripted) (direction : Direction) (bounds : Bounds) : List Item :=
  state.withItemFault (state.items.getD (SortedEngine.items state.contents direction bounds))

/-- Changes the contents. -/
def update (change : Contents → Contents) : StoreM Scripted Unit :=
  modify fun state => { state with contents := change state.contents }

/-- The engine with scripted faults.  Reading the statistics is not recorded. -/
def engine (atomic : Bool) : Engine Scripted where
  atomic := atomic
  get key := do
    receive (.get key)
    return (← getThe Scripted).contents.get? key
  write sync op := do
    receive (.write sync op)
    update fun contents => contents.applyTo op
  cursor direction bounds := do
    receive (.cursor direction bounds)
    return (← getThe Scripted).cursorItems direction bounds
  applyAll sync ops := do
    receive (.applyAll sync ops)
    update fun contents => ops.foldl Contents.applyTo contents
  stats state :=
    [("database.type", "scripted"), ("database.size", toString state.contents.size)]
  close := receive .close

end Scripted

end OrderedStore
