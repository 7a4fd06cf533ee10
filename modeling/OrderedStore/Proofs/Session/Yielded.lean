import OrderedStore.Proofs.Session.Iterators
import OrderedStore.Proofs.Simulation.Iterator

/-!
# What an iterator of a session yields

The entries that an iterator yields, in whatever way it is moved, are the first of those that it would
yield if it were drained at once.

* `Session.yielded` collects the entries past which an iterator is moved.
* `Iterator.respond_drainAll` says what a request leaves of the entries of an iterator.
* `Session.yielded_run` says the same of all steps of a session.
-/

namespace OrderedStore

variable {ρ σ : Type}

/-! ### What an iterator yields -/

/-- The entries past which a request moves an iterator. -/
def Iterator.passed (it : Iterator) : IteratorRequest → List Entry
  | .next => it.entry?.toList
  | .drain count => (it.drain (count.getD it.remaining)).1
  | _ => []

namespace Session

/-- The entries past which a step moves an iterator of the session. -/
def passed (session : Session ρ σ) (number : Nat) : Step → List Entry
  | .onIterator n request =>
    if n = number then (session.iterators[n]?).elim [] fun it => it.passed request else []
  | _ => []

/-- The entries past which steps move an iterator of the session. -/
def yielded (roots : ρ → Store σ) (number : Nat) (session : Session ρ σ) : List Step → List Entry
  | [] => []
  | step :: steps =>
    session.passed number step ++ yielded roots number (session.step roots step).2 steps

/-- Steps that are no requests to the iterator do not move it. -/
theorem passed_of_ne {session : Session ρ σ} {number : Nat} {step : Step}
    (h : ∀ request, step ≠ .onIterator number request) : session.passed number step = [] := by
  cases step with
  | onIterator n request => exact if_neg fun heq : n = number => h request (by rw [heq])
  | _ => rfl

end Session

/-! ### Requests -/

namespace Iterator

variable {it : Iterator}

/-- Unless it is closed, an iterator keeps the entries that it does not pass, and ends where it would have
ended. -/
theorem respond_drainAll_of_ne_close (it : Iterator) {request : IteratorRequest} (h : request ≠ .close) :
    (it.passed request ++ (it.respond request).2.drainAll.1, (it.respond request).2.drainAll.2) =
      it.drainAll := by
  cases request with
  | close => exact absurd rfl h
  | next =>
    rw [passed, respond, next?]
    cases hentry : it.entry? with
    | none =>
      have hvalid : ¬ it.valid = true := by simp [valid, hentry]
      rw [if_neg hvalid]
      rfl
    | some entry =>
      rw [if_pos (valid_of_entry?_eq_some hentry), drainAll_eq_of_entry?_eq_some hentry]
      rfl
  | drain count => exact drainAll_drain it _
  | key => rw [respond]; cases it.key? <;> rfl
  | value => rw [respond]; cases it.value? <;> rfl
  | valid => rfl
  | entry => rfl
  | bounds => rfl
  | error => rfl

/-- Closing drops the entries that are left; all other requests keep those that they do not pass. -/
theorem respond_drainAll (it : Iterator) (request : IteratorRequest) :
    it.passed request ++ (it.respond request).2.drainAll.1 <+: it.drainAll.1 := by
  by_cases hclose : request = .close
  · rw [hclose, it.respond_close]
    show [] ++ it.close.2.drainAll.1 <+: _
    rw [drainAll_of_entry?_eq_none (entry?_close it)]
    exact List.nil_prefix
  · exact congrArg Prod.fst (respond_drainAll_of_ne_close it hclose) ▸ List.prefix_refl _

end Iterator

/-! ### Runs -/

namespace Session

variable (roots : ρ → Store σ) {session : Session ρ σ} {number : Nat} {it : Iterator}

/-- Its own requests move an iterator, and no other step does. -/
theorem iterators_step (h : session.iterators[number]? = some it) (step : Step) :
    (∃ request, step = .onIterator number request ∧
      (session.step roots step).2.iterators[number]? = some (it.respond request).2 ∧
        session.passed number step = it.passed request) ∨
    ((∀ request, step ≠ .onIterator number request) ∧
      (session.step roots step).2.iterators[number]? = some it ∧ session.passed number step = []) := by
  by_cases hown : ∃ request, step = .onIterator number request
  · obtain ⟨request, rfl⟩ := hown
    refine .inl ⟨request, rfl, getElem?_iterators_onIterator h request, ?_⟩
    rw [passed, if_pos rfl, h]
    rfl
  · have hother : ∀ request, step ≠ .onIterator number request := fun request heq =>
      hown ⟨request, heq⟩
    exact .inr ⟨hother, getElem?_iterators_step h hother, passed_of_ne hother⟩

theorem yielded_step (h : session.iterators[number]? = some it) (step : Step) :
    ∃ it', (session.step roots step).2.iterators[number]? = some it' ∧
      session.passed number step ++ it'.drainAll.1 <+: it.drainAll.1 := by
  obtain ⟨request, rfl, hafter, hpassed⟩ | ⟨-, hafter, hpassed⟩ := iterators_step roots h step
  · refine ⟨_, hafter, ?_⟩
    rw [hpassed]
    exact it.respond_drainAll request
  · refine ⟨it, hafter, ?_⟩
    rw [hpassed]
    exact List.prefix_refl _

/-- What an iterator has yielded in a run and what it would still yield come first among the entries
that it would have yielded at once. -/
theorem yielded_run (h : session.iterators[number]? = some it) (steps : List Step) :
    ∃ it', (session.run roots steps).2.iterators[number]? = some it' ∧
      session.yielded roots number steps ++ it'.drainAll.1 <+: it.drainAll.1 := by
  induction steps generalizing session it with
  | nil => exact ⟨it, h, List.prefix_refl _⟩
  | cons step steps ih =>
    obtain ⟨between, hbetween, hpassed⟩ := yielded_step roots h step
    obtain ⟨it', hafter, hyielded⟩ := ih hbetween
    refine ⟨it', hafter, List.IsPrefix.trans ?_ hpassed⟩
    rw [yielded, List.append_assoc]
    exact (List.prefix_append_right_inj _).2 hyielded

/-- An iterator that is drained at once yields all its entries. -/
theorem yielded_drain (h : session.iterators[number]? = some it) :
    session.yielded roots number [.onIterator number (.drain none)] = it.drainAll.1 := by
  rw [yielded, yielded, passed, if_pos rfl, h, List.append_nil]
  rfl

end Session

end OrderedStore
