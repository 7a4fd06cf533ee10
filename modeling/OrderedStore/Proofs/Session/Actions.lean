import OrderedStore.Session.Basic

/-!
# Actions of a session

An action of a session changes few of its parts, so that most properties of a session are kept by most
actions.

* `Session.run_lookup` and `Session.run_call` are the runs of single actions, `Session.step_get`,
  `Session.step_has`, `Session.step_write`, `Session.step_iterate` and `Session.step_batch` those of
  requests to a store.
* `Session.Keeps` says that an action keeps a property of the session.
* `Session.Stable` is a property of the iterators and batches that are there: it does not depend on the
  other parts, nor on what is added.
* `Session.Stable.keeps_answer` says which steps keep such a property.
-/

namespace OrderedStore

namespace Session

open StoreM

variable {ρ σ α β : Type} {session : Session ρ σ} {number : Nat}

/-! ### Runs -/

theorem run_lookup {list : List α} {element : α} (h : list[number]? = some element) :
    (lookup list number : SessionM ρ σ α).run.run session = (.ok element, session) := by
  rw [lookup, h]
  rfl

theorem run_call {storeCall : StoreM σ α} {outcome : Except StoreError α} {after : σ}
    (h : storeCall.run.run session.state = (outcome, after)) :
    (call storeCall : SessionM ρ σ α).run.run session =
      (outcome.mapError .failed, { session with state := after }) := by
  have hstate : (onState storeCall.attempt : SessionM ρ σ _).run.run session =
      (.ok outcome, { session with state := after }) := by
    show (Except.ok (storeCall.run.run session.state).1,
      { session with state := (storeCall.run.run session.state).2 }) = _
    rw [h]
  rw [call, run_bind_of_ok hstate]
  cases outcome <;> rfl

/-- A call whose answer is passed on. -/
theorem run_call_map {storeCall : StoreM σ α} {outcome : Except StoreError α} {after : σ}
    (h : storeCall.run.run session.state = (outcome, after)) (f : α → β) :
    (do return f (← call storeCall) : SessionM ρ σ β).run.run session =
      ((outcome.mapError .failed).map f, { session with state := after }) := by
  cases outcome with
  | ok a => exact run_bind_of_ok (run_call h)
  | error error => exact run_bind_of_error (run_call h)

/-! ### Requests to a store -/

section Requests

variable {roots : ρ → Store σ} {handle : Handle ρ} {after : σ}

theorem step_get (h : session.handles[number]? = some handle) {key : Bytes}
    {outcome : Except StoreError (Option Bytes)}
    (hcall : ((handle.store roots).get key).run.run session.state = (outcome, after)) :
    session.step roots (.onStore number (.get key)) =
      ((outcome.mapError .failed).map .value, { session with state := after }) := by
  show (onStore roots number (.get key)).run.run session = _
  rw [onStore, run_bind_of_ok (run_get session), run_bind_of_ok (run_lookup h)]
  exact run_call_map hcall Answer.value

theorem step_has (h : session.handles[number]? = some handle) {key : Bytes}
    {outcome : Except StoreError Bool}
    (hcall : ((handle.store roots).has key).run.run session.state = (outcome, after)) :
    session.step roots (.onStore number (.has key)) =
      ((outcome.mapError .failed).map .flag, { session with state := after }) := by
  show (onStore roots number (.has key)).run.run session = _
  rw [onStore, run_bind_of_ok (run_get session), run_bind_of_ok (run_lookup h)]
  exact run_call_map hcall Answer.flag

theorem step_write (h : session.handles[number]? = some handle) {sync : Bool} {op : Operation}
    {outcome : Except StoreError Unit}
    (hcall : ((handle.store roots).write sync op).run.run session.state = (outcome, after)) :
    session.step roots (.onStore number (.write sync op)) =
      ((outcome.mapError .failed).map fun _ => .done, { session with state := after }) := by
  show (onStore roots number (.write sync op)).run.run session = _
  rw [onStore, run_bind_of_ok (run_get session), run_bind_of_ok (run_lookup h)]
  exact run_call_map hcall fun _ => Answer.done

/-- A request to a store that the session has no handle on. -/
theorem step_onStore_of_eq_none (h : session.handles[number]? = none) (request : StoreRequest) :
    session.step roots (.onStore number request) = (.error .unknown, session) := by
  show (onStore roots number request).run.run session = _
  rw [onStore, run_bind_of_ok (run_get session)]
  refine run_bind_of_error ?_
  rw [lookup, h]
  rfl

theorem step_iterate_of_error (h : session.handles[number]? = some handle) {direction : Direction}
    {bounds : Bounds} {error : StoreError}
    (hcall : ((handle.store roots).iterator direction bounds).run.run session.state =
      (.error error, after)) :
    session.step roots (.onStore number (.iterate direction bounds)) =
      (.error (.failed error), { session with state := after }) := by
  show (onStore roots number (.iterate direction bounds)).run.run session = _
  rw [onStore, run_bind_of_ok (run_get session), run_bind_of_ok (run_lookup h)]
  exact run_bind_of_error (run_call hcall)

/-- An iterator that a store makes is added to the session. -/
theorem step_iterate (h : session.handles[number]? = some handle) {direction : Direction}
    {bounds : Bounds} {it : Iterator}
    (hcall : ((handle.store roots).iterator direction bounds).run.run session.state = (.ok it, after)) :
    session.step roots (.onStore number (.iterate direction bounds)) =
      (.ok (.made session.iterators.length),
        { session with state := after, iterators := session.iterators ++ [it] }) := by
  show (onStore roots number (.iterate direction bounds)).run.run session = _
  rw [onStore, run_bind_of_ok (run_get session), run_bind_of_ok (run_lookup h)]
  exact run_bind_of_ok (run_call hcall)

/-- A batch that a store makes is added to the session. -/
theorem step_batch (roots : ρ → Store σ) (h : session.handles[number]? = some handle) :
    session.step roots (.onStore number .batch) =
      let (batch, state) := (handle.store roots).newBatch.run session.state
      (.ok (.made session.batches.length),
        { session with state, batches := session.batches ++ [batch] }) := by
  show (onStore roots number .batch).run.run session = _
  rw [onStore, run_bind_of_ok (run_get session), run_bind_of_ok (run_lookup h)]
  rfl

end Requests

/-! ### Lists of steps -/

/-- Steps are taken one list after the other, or at once. -/
theorem run_append (roots : ρ → Store σ) (session : Session ρ σ) (first second : List Step) :
    (session.run roots (first ++ second)).2 = ((session.run roots first).2.run roots second).2 := by
  induction first generalizing session with
  | nil => rfl
  | cons step first ih => exact ih (session.step roots step).2

/-! ### Properties that are kept -/

/-- An action keeps a property of the session, whether or not it is refused. -/
def Keeps (P : Session ρ σ → Prop) (action : SessionM ρ σ α) : Prop :=
  ∀ session, P session → P (action.run.run session).2

/-- A property of the iterators and batches that a session holds.  Neither the other parts of the
session matter nor the iterators and batches that are added. -/
structure Stable (P : Session ρ σ → Prop) : Prop where
  state : ∀ {session : Session ρ σ}, P session → ∀ state, P { session with state }
  handles : ∀ {session : Session ρ σ}, P session → ∀ handles, P { session with handles }
  transactions : ∀ {session : Session ρ σ}, P session →
    ∀ transactions, P { session with transactions }
  addIterator : ∀ {session : Session ρ σ}, P session →
    ∀ it, P { session with iterators := session.iterators ++ [it] }
  addBatch : ∀ {session : Session ρ σ}, P session →
    ∀ batch, P { session with batches := session.batches ++ [batch] }

namespace Keeps

variable {P : Session ρ σ → Prop}

theorem pure (a : α) : Keeps P (Pure.pure a : SessionM ρ σ α) := fun _ h => h

theorem throw (refusal : Refusal) : Keeps P (throw refusal : SessionM ρ σ α) := fun _ h => h

theorem get : Keeps P (getThe (Session ρ σ) : SessionM ρ σ (Session ρ σ)) := fun _ h => h

theorem bind {action : SessionM ρ σ α} {next : α → SessionM ρ σ β} (h : Keeps P action)
    (hnext : ∀ a, Keeps P (next a)) : Keeps P (action >>= next) := by
  intro session hP
  have hbetween := h session hP
  rcases hrun : action.run.run session with ⟨error | a, between⟩
  · rw [run_bind_of_error hrun]
    rwa [hrun] at hbetween
  · rw [run_bind_of_ok hrun]
    rw [hrun] at hbetween
    exact hnext a between hbetween

theorem lookup (list : List α) (n : Nat) : Keeps P (Session.lookup list n : SessionM ρ σ α) := by
  rw [Session.lookup]
  cases list[n]? with
  | none => exact throw _
  | some a => exact pure a

/-- A call that reports an outcome keeps everything. -/
theorem call_ofExcept (outcome : Except StoreError α) :
    Keeps P (Session.call (.ofExcept outcome) : SessionM ρ σ α) := by
  cases outcome <;> exact fun _ h => h

/-- Requests to iterators keep what replacing iterators keeps. -/
theorem onIterator (hset : ∀ it, Keeps P (setIterator number it : SessionM ρ σ Unit))
    (request : IteratorRequest) :
    Keeps P (Session.onIterator number request : SessionM ρ σ Answer) := by
  refine .bind get fun _ => .bind (lookup _ _) fun it => ?_
  cases request with
  | next =>
    dsimp only
    cases it.next? with
    | none => exact throw _
    | some next => exact .bind (hset _) fun _ => pure _
  | key =>
    dsimp only
    cases it.key? with
    | none => exact throw _
    | some key => exact pure _
  | value =>
    dsimp only
    cases it.value? with
    | none => exact throw _
    | some value => exact pure _
  | drain count => exact .bind (hset _) fun _ => pure _
  | close => exact .bind (hset _) fun _ => .bind (call_ofExcept _) fun _ => pure _
  | valid => exact pure _
  | entry => exact pure _
  | bounds => exact pure _
  | error => exact pure _

end Keeps

namespace Stable

variable {P : Session ρ σ → Prop}

theorem onState (hP : Stable P) (action : StateM σ α) :
    Keeps P (Session.onState action : SessionM ρ σ α) := fun _ h => hP.state h _

theorem call (hP : Stable P) (storeCall : StoreM σ α) :
    Keeps P (Session.call storeCall : SessionM ρ σ α) := by
  refine .bind (hP.onState _) ?_
  intro outcome
  cases outcome with
  | ok a => exact .pure a
  | error error => exact .throw _

theorem addHandle (hP : Stable P) (handle : Handle ρ) :
    Keeps P (Session.addHandle handle : SessionM ρ σ Answer) := fun _ h => hP.handles h _

theorem setTransaction (hP : Stable P) (n : Nat) (tx : Transaction (Store σ) σ) :
    Keeps P (Session.setTransaction n tx : SessionM ρ σ Unit) := fun _ h => hP.transactions h _

/-- Requests to batches keep what replacing batches keeps. -/
theorem onBatch (hP : Stable P) (hset : ∀ batch, Keeps P (setBatch number batch : SessionM ρ σ Unit))
    (request : BatchRequest) : Keeps P (Session.onBatch number request : SessionM ρ σ Answer) :=
  .bind .get fun _ => .bind (.lookup _ _) fun _ => .bind (hset _) fun _ =>
    .bind (hP.call _) fun _ => .pure _

theorem onTransaction (hP : Stable P) (n : Nat) (request : TransactionRequest) :
    Keeps P (Session.onTransaction n request : SessionM ρ σ Answer) := by
  refine .bind .get fun _ => .bind (.lookup _ _) fun _ => ?_
  cases request with
  | write sync op => exact .bind (hP.setTransaction _ _) fun _ => .pure _
  | append key script => exact .bind (hP.setTransaction _ _) fun _ => .pure _
  | progress => exact .pure _

theorem runTransaction (hP : Stable P) (store : Store σ) (n : Nat) :
    Keeps P (Session.runTransaction store n : SessionM ρ σ Answer) :=
  .bind .get fun _ => .bind (.lookup _ _) fun _ => .bind (hP.onState _) fun _ =>
    .bind (hP.setTransaction _ _) fun _ => .bind (hP.call _) fun _ => .pure _

theorem onStore (hP : Stable P) (roots : ρ → Store σ) (n : Nat) (request : StoreRequest) :
    Keeps P (Session.onStore roots n request) := by
  refine .bind .get fun _ => .bind (.lookup _ _) fun handle => ?_
  cases request with
  | get key => exact .bind (hP.call _) fun _ => .pure _
  | has key => exact .bind (hP.call _) fun _ => .pure _
  | write sync op => exact .bind (hP.call _) fun _ => .pure _
  | writeAll sync ops => exact .bind (hP.call _) fun _ => .pure _
  | iterate direction bounds => exact .bind (hP.call _) fun _ _ h => hP.addIterator h _
  | iterateStem stem => exact .bind (hP.call _) fun _ _ h => hP.addIterator h _
  | batch => exact .bind (hP.onState _) fun _ _ h => hP.addBatch h _
  | runTransaction transaction => exact hP.runTransaction _ _
  | dump limit =>
    refine .bind (hP.onState _) ?_
    intro written
    obtain ⟨outcome, sink⟩ := written
    cases outcome with
    | ok _ => exact .pure _
    | error error => exact .pure _
  | stats => exact .bind .get fun _ => .pure _
  | close => exact .bind (hP.call _) fun _ => .pure _
  | clone => exact hP.addHandle _
  | view stem => exact hP.addHandle _
  | stem =>
    cases handle with
    | root name => exact .throw _
    | view stem source => exact .pure _
  | source =>
    cases handle with
    | root name => exact .throw _
    | view stem source => exact hP.addHandle _
  | release => exact .pure _

/-- Steps keep a stable property if those on iterators and batches do. -/
theorem keeps_answer (hP : Stable P) (roots : ρ → Store σ) {step : Step}
    (hiterator : ∀ n request, step = .onIterator n request →
      Keeps P (Session.onIterator n request : SessionM ρ σ Answer))
    (hbatch : ∀ n request, step = .onBatch n request →
      Keeps P (Session.onBatch n request : SessionM ρ σ Answer)) :
    Keeps P (Session.answer roots step) := by
  cases step with
  | onStore n request => exact hP.onStore roots n request
  | onIterator n request => exact hiterator n request rfl
  | onBatch n request => exact hbatch n request rfl
  | newTransaction => exact fun _ h => hP.transactions h _
  | onTransaction n request => exact hP.onTransaction n request

end Stable

end Session

end OrderedStore
