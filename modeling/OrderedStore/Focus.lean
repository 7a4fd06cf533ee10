import OrderedStore.Store

/-!
# Stores within a larger state

A store on a part of a state is a store on the whole state: its calls read the part, act on it, and
put it back.
-/

namespace OrderedStore

/-- A part `τ` of a state `σ`. -/
structure Part (σ τ : Type) where
  read : σ → τ
  replace : τ → σ → σ

variable {σ τ : Type}

/-- The element of a list at an index, which the list is promised to have. -/
def Part.element [Inhabited τ] (part : Part σ (List τ)) (index : Nat) : Part σ τ where
  read state := (part.read state).getD index default
  replace new state := part.replace ((part.read state).set index new) state

/-- An action on a part as an action on the whole. -/
def Part.stateM {α : Type} (part : Part σ τ) (action : StateM τ α) : StateM σ α := do
  let state ← get
  let (answer, new) := action.run (part.read state)
  set (part.replace new state)
  return answer

/-- A call on a part as a call on the whole. -/
def Part.call {α : Type} (part : Part σ τ) (call : StoreM τ α) : StoreM σ α :=
  ExceptT.mk (part.stateM call.run)

/-- A batch for a part as a batch for the whole. -/
def Batch.focus (part : Part σ τ) : Batch τ → Batch σ
  | queued apply queue => queued (fun sync ops => part.call (apply sync ops)) queue
  | view stem source => view stem (source.focus part)

/-- A store on a part as a store on the whole. -/
def Store.focus (store : Store τ) (part : Part σ τ) : Store σ where
  get key := part.call (store.get key)
  has key := part.call (store.has key)
  write sync op := part.call (store.write sync op)
  iterator direction bounds := part.call (store.iterator direction bounds)
  newBatch := do return (← part.stateM store.newBatch).focus part
  stats state := store.stats (part.read state)
  close := part.call store.close

end OrderedStore
