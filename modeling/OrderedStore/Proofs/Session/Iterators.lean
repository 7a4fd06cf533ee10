import OrderedStore.Proofs.Session.Actions
import OrderedStore.Proofs.Simulation.Agree

/-!
# The iterators of a session

An iterator of a session is changed by the requests that it is sent and by nothing else.

* `Iterator.respond` is what an iterator answers, and what becomes of it.
* `Session.step_onIterator` says that a session hands requests on.
* `Session.getElem?_iterators_step` says that all other steps leave an iterator alone.
-/

namespace OrderedStore

variable {ρ σ α β : Type}

/-! ### Requests to an iterator -/

/-- The answer to a request, and the iterator after it. -/
def Iterator.respond (it : Iterator) : IteratorRequest → Except Refusal Answer × Iterator
  | .valid => (.ok (.flag it.valid), it)
  | .next =>
    match it.next? with
    | none => (.error (.misused .next), it)
    | some next => (.ok (.flag next.valid), next)
  | .key =>
    match it.key? with
    | none => (.error (.misused .key), it)
    | some key => (.ok (.bytes key), it)
  | .value =>
    match it.value? with
    | none => (.error (.misused .value), it)
    | some value => (.ok (.bytes value), it)
  | .entry => (.ok (.entry it.entry?), it)
  | .bounds => (.ok (.bounds it.bounds), it)
  | .error => (.ok (.error it.error?), it)
  | .drain count =>
    let (entries, drained) := it.drain (count.getD it.remaining)
    (.ok (.entries entries), drained)
  | .close =>
    match it.close with
    | (.ok (), closed) => (.ok .done, closed)
    | (.error error, closed) => (.error (.failed error), closed)

theorem Iterator.respond_close (it : Iterator) : it.respond .close = (.ok .done, it.close.2) := by
  have hclose : it.close = (.ok (), it.close.2) := Prod.ext it.fst_close rfl
  rw [respond, hclose]

namespace Session

open StoreM

variable {roots : ρ → Store σ} {session : Session ρ σ} {number : Nat} {it : Iterator}

theorem set_iterators_self (h : session.iterators[number]? = some it) :
    { session with iterators := session.iterators.set number it } = session := by
  obtain ⟨hlt, rfl⟩ := List.getElem?_eq_some_iff.1 h
  rw [List.set_getElem_self]

/-- A request to an iterator of the session is answered by the iterator. -/
theorem step_onIterator (h : session.iterators[number]? = some it) (request : IteratorRequest) :
    session.step roots (.onIterator number request) =
      ((it.respond request).1,
        { session with iterators := session.iterators.set number (it.respond request).2 }) := by
  have hself := set_iterators_self h
  show (onIterator number request).run.run session = _
  rw [onIterator, run_bind_of_ok (run_get session), run_bind_of_ok (run_lookup h)]
  cases request with
  | valid => exact congrArg (Prod.mk _) hself.symm
  | next =>
    rw [Iterator.respond]
    cases it.next? with
    | none => exact congrArg (Prod.mk _) hself.symm
    | some next => rfl
  | key =>
    rw [Iterator.respond]
    cases it.key? with
    | none => exact congrArg (Prod.mk _) hself.symm
    | some key => exact congrArg (Prod.mk _) hself.symm
  | value =>
    rw [Iterator.respond]
    cases it.value? with
    | none => exact congrArg (Prod.mk _) hself.symm
    | some value => exact congrArg (Prod.mk _) hself.symm
  | entry => exact congrArg (Prod.mk _) hself.symm
  | bounds => exact congrArg (Prod.mk _) hself.symm
  | error => exact congrArg (Prod.mk _) hself.symm
  | drain count => rfl
  | close =>
    rw [it.respond_close]
    dsimp only
    rw [it.fst_close]
    rfl

theorem step_onIterator_of_eq_none (h : session.iterators[number]? = none)
    (request : IteratorRequest) :
    session.step roots (.onIterator number request) = (.error .unknown, session) := by
  show (onIterator number request).run.run session = _
  rw [onIterator, run_bind_of_ok (run_get session), lookup, h]
  rfl

theorem getElem?_iterators_onIterator (h : session.iterators[number]? = some it)
    (request : IteratorRequest) :
    (session.step roots (.onIterator number request)).2.iterators[number]? =
      some (it.respond request).2 := by
  rw [step_onIterator h]
  exact List.getElem?_set_self (List.getElem?_eq_some_iff.1 h).1

/-! ### All other steps -/

/-- An action of the session leaves an iterator as it is. -/
def Leaves (number : Nat) (it : Iterator) (action : SessionM ρ σ α) : Prop :=
  ∀ session : Session ρ σ, session.iterators[number]? = some it →
    (action.run.run session).2.iterators[number]? = some it

/-- What is asked of an iterator that is there is stable: new iterators come behind it. -/
theorem stable_getElem?_iterators (number : Nat) (it : Iterator) :
    Stable fun session : Session ρ σ => session.iterators[number]? = some it where
  state h _ := h
  handles h _ := h
  transactions h _ := h
  addBatch h _ := h
  addIterator h _ := by rw [List.getElem?_append_left (List.getElem?_eq_some_iff.1 h).1, h]

/-- A request to another iterator leaves an iterator as it is. -/
theorem getElem?_iterators_onIterator_of_ne (roots : ρ → Store σ)
    (h : session.iterators[number]? = some it) {n : Nat} (hn : n ≠ number) (request : IteratorRequest) :
    (session.step roots (.onIterator n request)).2.iterators[number]? = some it := by
  cases hother : session.iterators[n]? with
  | none =>
    rw [step_onIterator_of_eq_none hother]
    exact h
  | some other =>
    rw [step_onIterator hother, List.getElem?_set_ne hn, h]

/-- Steps leave an iterator alone unless they are its own requests. -/
theorem leaves_answer {step : Step} (hstep : ∀ request, step ≠ .onIterator number request) :
    Leaves number it (answer roots step) := by
  refine (stable_getElem?_iterators number it).keeps_answer roots ?_ ?_
  · rintro n request rfl session h
    have hn : n ≠ number := fun hn => hstep request (hn ▸ rfl)
    exact getElem?_iterators_onIterator_of_ne roots h hn request
  · rintro n request -
    exact (stable_getElem?_iterators number it).onBatch (fun _ _ h => h) request

/-- Only its own requests change an iterator. -/
theorem getElem?_iterators_step (h : session.iterators[number]? = some it) {step : Step}
    (hstep : ∀ request, step ≠ .onIterator number request) :
    (session.step roots step).2.iterators[number]? = some it :=
  leaves_answer hstep session h

end Session

end OrderedStore
