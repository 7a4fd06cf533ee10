import OrderedStore.Dump
import OrderedStore.Script
import OrderedStore.View

/-!
# Sessions

A session works on the stores of a state `σ`.  It keeps handles on stores and on views of them,
iterators, batches and transactions, each numbered in the order in which it was made, and answers
steps one after the other.  The stores themselves are given by `roots : ρ → Store σ`.

* `Step` is what can be asked, `Answer` what is answered, `Refusal` why a step has no answer.
* `Session.answer` carries out one step, `Session.run` a list of steps.
-/

namespace OrderedStore

/-- A store, or a view of one. -/
inductive Handle (ρ : Type) where
  | root (root : ρ)
  | view (stem : Bytes) (source : Handle ρ)
  deriving DecidableEq

/-- The calls of the store that a handle stands for. -/
def Handle.store {ρ σ : Type} (roots : ρ → Store σ) : Handle ρ → Store σ
  | root name => roots name
  | view stem source => (source.store roots).view stem

/-! ### Steps -/

/-- What can be asked of a store. -/
inductive StoreRequest where
  | get (key : Bytes)
  | has (key : Bytes)
  | write (sync : Bool) (op : Operation)
  /-- Writes in turn, up to the first failure. -/
  | writeAll (sync : Bool) (ops : List Operation)
  | iterate (direction : Direction) (bounds : Bounds)
  | iterateStem (stem : Bytes)
  | batch
  /-- Runs a transaction of the session on the store. -/
  | runTransaction (transaction : Nat)
  | dump (limit : Option Nat)
  | stats
  | close
  /-- Makes another handle on the same store. -/
  | clone
  | view (stem : Bytes)
  /-- The stem of a view. -/
  | stem
  /-- Makes a handle on the store below a view. -/
  | source
  /-- Gives the handle up; what was made through it goes on. -/
  | release

/-- What can be asked of an iterator. -/
inductive IteratorRequest where
  | valid
  | next
  | key
  | value
  | entry
  | bounds
  | error
  /-- Reads entries, at most `count` if it is given, and moves on. -/
  | drain (count : Option Nat)
  | close

/-- What can be asked of a transaction. -/
inductive TransactionRequest where
  /-- Adds the step that makes a write. -/
  | write (sync : Bool) (op : Operation)
  /-- Adds a step that carries out a script. -/
  | append (key : Bytes) (script : Script)
  | progress

/-- A step of a session; the numbers tell which store, iterator, batch or transaction is meant. -/
inductive Step where
  | onStore (store : Nat) (request : StoreRequest)
  | onIterator (iterator : Nat) (request : IteratorRequest)
  | onBatch (batch : Nat) (request : BatchRequest)
  | newTransaction
  | onTransaction (transaction : Nat) (request : TransactionRequest)

/-! ### Answers -/

/-- The uses of an iterator that are refused when it is invalid. -/
inductive Access where
  | key
  | value
  | next
  deriving DecidableEq

/-- The text with which a use of an invalid iterator is refused. -/
def Access.message : Access → String
  | key => "called key() on invalid iterator"
  | value => "called value() on invalid iterator"
  | next => "called next() on invalid iterator"

/-- What a step is answered. -/
inductive Answer where
  | done
  /-- The number of what the step has made. -/
  | made (number : Nat)
  | flag (value : Bool)
  | bytes (value : Bytes)
  | value (value : Option Bytes)
  | entry (entry : Option Entry)
  | entries (entries : List Entry)
  | bounds (bounds : Bounds)
  | error (error : Option StoreError)
  | stats (stats : Stats)
  /-- The text of a dump, and the error that ended it. -/
  | dump (text : String) (error : Option StoreError)
  /-- The number of steps that wait in a transaction, and how far it has come. -/
  | progress (size : Nat) (isEmpty : Bool) (state : TransactionState)
  deriving DecidableEq

/-- Why a step has no answer. -/
inductive Refusal where
  /-- The store, batch or transaction reported an error. -/
  | failed (error : StoreError)
  /-- An invalid iterator was used. -/
  | misused (access : Access)
  /-- The step speaks of something that the session does not hold. -/
  | unknown
  deriving DecidableEq

/-- The state of a session. -/
structure Session (ρ σ : Type) where
  state : σ
  handles : List (Handle ρ)
  iterators : List Iterator
  batches : List (Batch σ)
  transactions : List (Transaction (Store σ) σ)

/-- An action of a session that may be refused. -/
abbrev SessionM (ρ σ : Type) := ExceptT Refusal (StateM (Session ρ σ))

namespace Session

variable {ρ σ : Type}

/-- A session without handles. -/
def start (state : σ) : Session ρ σ := ⟨state, [], [], [], []⟩

/-- A session with one handle, on a store. -/
def ofRoot (root : ρ) (state : σ) : Session ρ σ := ⟨state, [.root root], [], [], []⟩

/-! ### Parts of a session -/

/-- The element with a number; it is unknown if there is none. -/
def lookup {α : Type} (list : List α) (number : Nat) : SessionM ρ σ α :=
  match list[number]? with
  | none => throw .unknown
  | some element => pure element

/-- Acts on the state of the stores. -/
def onState {α : Type} (action : StateM σ α) : SessionM ρ σ α := do
  let session ← get
  let (answer, state) := action.run session.state
  set { session with state }
  return answer

/-- Makes a call on the stores. -/
def call {α : Type} (storeCall : StoreM σ α) : SessionM ρ σ α := do
  match ← onState storeCall.attempt with
  | .ok answer => pure answer
  | .error error => throw (.failed error)

/-- Adds a handle. -/
def addHandle (handle : Handle ρ) : SessionM ρ σ Answer :=
  modifyGet fun session =>
    (.made session.handles.length, { session with handles := session.handles ++ [handle] })

/-- Adds an iterator. -/
def addIterator (iterator : Iterator) : SessionM ρ σ Answer :=
  modifyGet fun session =>
    (.made session.iterators.length,
      { session with iterators := session.iterators ++ [iterator] })

/-- Adds a batch. -/
def addBatch (batch : Batch σ) : SessionM ρ σ Answer :=
  modifyGet fun session =>
    (.made session.batches.length, { session with batches := session.batches ++ [batch] })

/-- Adds a transaction. -/
def addTransaction (transaction : Transaction (Store σ) σ) : SessionM ρ σ Answer :=
  modifyGet fun session =>
    (.made session.transactions.length,
      { session with transactions := session.transactions ++ [transaction] })

/-- Replaces an iterator. -/
def setIterator (number : Nat) (iterator : Iterator) : SessionM ρ σ Unit :=
  modify fun session => { session with iterators := session.iterators.set number iterator }

/-- Replaces a batch. -/
def setBatch (number : Nat) (batch : Batch σ) : SessionM ρ σ Unit :=
  modify fun session => { session with batches := session.batches.set number batch }

/-- Replaces a transaction. -/
def setTransaction (number : Nat) (transaction : Transaction (Store σ) σ) : SessionM ρ σ Unit :=
  modify fun session =>
    { session with transactions := session.transactions.set number transaction }

/-! ### Answering -/

/-- Answers a request to an iterator.  A refused use leaves the iterator as it is. -/
def onIterator (number : Nat) (request : IteratorRequest) : SessionM ρ σ Answer := do
  let it ← lookup (← getThe (Session ρ σ)).iterators number
  match request with
  | .valid => return .flag it.valid
  | .next =>
    match it.next? with
    | none => throw (.misused .next)
    | some it =>
      setIterator number it
      return .flag it.valid
  | .key =>
    match it.key? with
    | none => throw (.misused .key)
    | some key => return .bytes key
  | .value =>
    match it.value? with
    | none => throw (.misused .value)
    | some value => return .bytes value
  | .entry => return .entry it.entry?
  | .bounds => return .bounds it.bounds
  | .error => return .error it.error?
  | .drain count =>
    let (entries, it) := it.drain (count.getD it.remaining)
    setIterator number it
    return .entries entries
  | .close =>
    let (outcome, closed) := it.close
    setIterator number closed
    call (.ofExcept outcome)
    return .done

/-- Answers a request to a batch. -/
def onBatch (number : Nat) (request : BatchRequest) : SessionM ρ σ Answer := do
  let batch ← lookup (← getThe (Session ρ σ)).batches number
  let (batch, storeCall) := batch.send request
  setBatch number batch
  call storeCall
  return .done

/-- Answers a request to a transaction. -/
def onTransaction (number : Nat) (request : TransactionRequest) : SessionM ρ σ Answer := do
  let transaction ← lookup (← getThe (Session ρ σ)).transactions number
  match request with
  | .write sync op =>
    setTransaction number (transaction.append ⟨op.key, fun store => store.write sync op⟩)
    return .done
  | .append key script =>
    setTransaction number (transaction.append ⟨key, script.run⟩)
    return .done
  | .progress => return .progress transaction.size transaction.isEmpty transaction.state

/-- Runs a transaction on a store. -/
def runTransaction (store : Store σ) (number : Nat) : SessionM ρ σ Answer := do
  let transaction ← lookup (← getThe (Session ρ σ)).transactions number
  let (outcome, transaction) ← onState (store.runTransaction transaction)
  setTransaction number transaction
  call (.ofExcept outcome)
  return .done

/-- Answers a request to a store. -/
def onStore (roots : ρ → Store σ) (number : Nat) (request : StoreRequest) :
    SessionM ρ σ Answer := do
  let handle ← lookup (← getThe (Session ρ σ)).handles number
  let store := handle.store roots
  match request with
  | .get key => return .value (← call (store.get key))
  | .has key => return .flag (← call (store.has key))
  | .write sync op =>
    call (store.write sync op)
    return .done
  | .writeAll sync ops =>
    call (store.writeAll sync ops)
    return .done
  | .iterate direction bounds => addIterator (← call (store.iterator direction bounds))
  | .iterateStem stem => addIterator (← call (store.iterateStem stem))
  | .batch => addBatch (← onState store.newBatch)
  | .runTransaction transaction => runTransaction store transaction
  | .dump limit =>
    let (outcome, sink) ← onState (store.dump (.ofLimit limit))
    match outcome with
    | .ok () => return .dump sink.text none
    | .error error => return .dump sink.text (some error)
  | .stats => return .stats (store.stats (← getThe (Session ρ σ)).state)
  | .close =>
    call store.close
    return .done
  | .clone => addHandle handle
  | .view stem => addHandle (.view stem handle)
  | .stem =>
    match handle with
    | .root _ => throw .unknown
    | .view stem _ => return .bytes stem
  | .source =>
    match handle with
    | .root _ => throw .unknown
    | .view _ source => addHandle source
  | .release => return .done

/-- Carries out a step. -/
def answer (roots : ρ → Store σ) : Step → SessionM ρ σ Answer
  | .onStore number request => onStore roots number request
  | .onIterator number request => onIterator number request
  | .onBatch number request => onBatch number request
  | .newTransaction => addTransaction .empty
  | .onTransaction number request => onTransaction number request

/-- The session after a step, and its answer. -/
def step (roots : ρ → Store σ) (session : Session ρ σ) (step : Step) :
    Except Refusal Answer × Session ρ σ :=
  (answer roots step).run session

/-- The answers of a list of steps, and the session after them. -/
def run (roots : ρ → Store σ) (session : Session ρ σ) :
    List Step → List (Except Refusal Answer) × Session ρ σ
  | [] => ([], session)
  | step :: steps =>
    let (answer, session) := session.step roots step
    let (answers, session) := session.run roots steps
    (answer :: answers, session)

end Session

end OrderedStore
