import OrderedStore.Engine.Scripted
import OrderedStore.Focus
import OrderedStore.Memory
import OrderedStore.Proofs.Iterator.Flags
import OrderedStore.Proofs.Session.Yielded

/-!
# The contract of iterators

Whatever a session does, each of its iterators keeps the contract: it keeps the bounds with which it was
made, refuses to be read and moved just if it is invalid, stays invalid, and keeps its error.

* `Store.Assembled` says that a store is made of memories and engines.
* `Session.Stands` says how an iterator answers in a session.
* `Session.iterator_keeps_contract` follows an iterator from the step in which it is made.
-/

namespace OrderedStore

open StoreM

variable {ρ σ : Type}

/-! ### Iterators that stores make -/

/-- The store is a memory or a store over an engine, which may be seen through views or be a part of a
larger state. -/
inductive Store.Assembled : {σ : Type} → Store σ → Prop where
  | memory : Assembled Memory.store
  | engine {σ : Type} (engine : Engine σ) : Assembled engine.store
  | view {σ : Type} {source : Store σ} (h : Assembled source) (stem : Bytes) :
    Assembled (source.view stem)
  | focus {σ τ : Type} {store : Store τ} (h : Assembled store) (part : Part σ τ) :
    Assembled (store.focus part)

/-- What such a store makes is sound and has the bounds that were asked for. -/
theorem Store.Assembled.iterator {store : Store σ} (h : store.Assembled) :
    ∀ {direction : Direction} {bounds : Bounds} {state after : σ} {it : Iterator},
      (store.iterator direction bounds).run.run state = (.ok it, after) →
        it.Sound ∧ it.bounds = bounds := by
  induction h with
  | memory =>
    intro direction bounds state after it hrun
    obtain ⟨_, _, -, hmade⟩ := run_bind_eq_ok_iff.1 hrun
    cases hmade
    exact ⟨trivial, rfl⟩
  | engine engine =>
    intro direction bounds state after it hrun
    obtain ⟨_, _, -, hrun⟩ := run_bind_eq_ok_iff.1 hrun
    obtain ⟨items, _, -, hmade⟩ := run_bind_eq_ok_iff.1 hrun
    cases hmade
    exact ⟨Iterator.sound_draw bounds items, Iterator.bounds_draw bounds none items⟩
  | view h stem ih =>
    intro direction bounds state after it hrun
    obtain ⟨_, _, -, hrun⟩ := run_bind_eq_ok_iff.1 hrun
    obtain ⟨source, _, hsource, hmade⟩ := run_bind_eq_ok_iff.1 hrun
    cases hmade
    exact ⟨(ih hsource).1, rfl⟩
  | @focus σ τ store h part ih =>
    intro direction bounds state after it hrun
    rcases hpart : (store.iterator direction bounds).run.run (part.read state) with ⟨outcome, new⟩
    have houtcome : outcome = .ok it := by
      have hfst := congrArg Prod.fst hrun
      change ((store.iterator direction bounds).run.run (part.read state)).1 = .ok it at hfst
      rwa [hpart] at hfst
    rw [houtcome] at hpart
    exact ih hpart

theorem Handle.store_assembled {roots : ρ → Store σ} (hroots : ∀ name, (roots name).Assembled)
    (handle : Handle ρ) : (handle.store roots).Assembled := by
  induction handle with
  | root name => exact hroots name
  | view stem source ih => exact ih.view stem

/-! ### Requests -/

/-- The direction and the bounds of the iterator that a request asks for. -/
def StoreRequest.walk? : StoreRequest → Option (Direction × Bounds)
  | iterate direction bounds => some (direction, bounds)
  | iterateStem front => some (.ascending, .ofStem front)
  | _ => none

/-- The request that makes a use of an iterator. -/
def Access.request : Access → IteratorRequest
  | key => .key
  | value => .value
  | next => .next

/-- The request that a step makes of an iterator. -/
def Step.requestTo? (number : Nat) : Step → Option IteratorRequest
  | .onIterator n request => if n = number then some request else none
  | _ => none

theorem Step.requestTo?_self (number : Nat) (request : IteratorRequest) :
    (Step.onIterator number request).requestTo? number = some request := if_pos rfl

theorem Step.requestTo?_of_ne {number : Nat} {step : Step}
    (h : ∀ request, step ≠ .onIterator number request) : step.requestTo? number = none := by
  cases step with
  | onIterator n request => exact if_neg fun heq : n = number => h request (by rw [heq])
  | _ => rfl

/-- An invalid iterator refuses every use and stays as it is. -/
theorem Iterator.respond_access_of_not_valid {it : Iterator} (h : it.valid = false) (access : Access) :
    it.respond access.request = (.error (.misused access), it) := by
  have hentry := entry?_eq_none_of_not_valid h
  cases access with
  | key => rw [Access.request, respond, key?, hentry]; rfl
  | value => rw [Access.request, respond, value?, hentry]; rfl
  | next => rw [Access.request, respond, next?, h]; rfl

/-- A valid iterator grants every use. -/
theorem Iterator.respond_access_of_valid {it : Iterator} (h : it.valid = true) (access : Access) :
    ∃ answer, (it.respond access.request).1 = .ok answer := by
  obtain ⟨entry, hentry⟩ := Option.isSome_iff_exists.1 h
  cases access with
  | key => exact ⟨_, by rw [Access.request, respond, key?, hentry]; rfl⟩
  | value => exact ⟨_, by rw [Access.request, respond, value?, hentry]; rfl⟩
  | next => exact ⟨_, by rw [Access.request, respond, next?, if_pos h]⟩

namespace Session

variable {roots : ρ → Store σ} {session : Session ρ σ} {number : Nat} {it : Iterator}

/-! ### The iterator that a step makes -/

theorem step_onStore_of_walk {request : StoreRequest} {direction : Direction} {bounds : Bounds}
    (h : request.walk? = some (direction, bounds)) (n : Nat) :
    session.step roots (.onStore n request) =
      session.step roots (.onStore n (.iterate direction bounds)) := by
  cases request with
  | iterate =>
    cases h
    rfl
  | iterateStem =>
    cases h
    rfl
  | _ => cases h

/-- An iterator that is made is sound and has the bounds that were asked for. -/
theorem iterator_of_made (hroots : ∀ name, (roots name).Assembled) {request : StoreRequest}
    {direction : Direction} {bounds : Bounds} (hwalk : request.walk? = some (direction, bounds)) {n : Nat}
    (hmade : (session.step roots (.onStore n request)).1 = .ok (.made number)) :
    ∃ it, (session.step roots (.onStore n request)).2.iterators[number]? = some it ∧ it.Sound ∧
      it.bounds = bounds := by
  rw [step_onStore_of_walk hwalk] at hmade ⊢
  cases hhandle : session.handles[n]? with
  | none =>
    rw [step_onStore_of_eq_none hhandle] at hmade
    cases hmade
  | some handle =>
    rcases hcall : ((handle.store roots).iterator direction bounds).run.run session.state with
      ⟨error | it, after⟩
    · rw [step_iterate_of_error hhandle hcall] at hmade
      cases hmade
    · rw [step_iterate hhandle hcall] at hmade ⊢
      cases hmade
      exact ⟨it, List.getElem?_concat_length, (handle.store_assembled hroots).iterator hcall⟩

/-! ### How an iterator answers -/

/-- The iterator of the session answers that it is valid or not, with this error and these bounds, and
nothing of that changes the session.  It has an error only if it is invalid.  If it is invalid, it refuses
every use, and the session stays as it is; otherwise it grants every use. -/
structure Stands (roots : ρ → Store σ) (session : Session ρ σ) (number : Nat) (bounds : Bounds)
    (valid : Bool) (error : Option StoreError) : Prop where
  answers_valid : session.step roots (.onIterator number .valid) = (.ok (.flag valid), session)
  answers_error : session.step roots (.onIterator number .error) = (.ok (.error error), session)
  answers_bounds : session.step roots (.onIterator number .bounds) = (.ok (.bounds bounds), session)
  invalid_of_error : error ≠ none → valid = false
  refuses : valid = false → ∀ access : Access,
    session.step roots (.onIterator number access.request) = (.error (.misused access), session)
  grants : valid = true → ∀ access : Access,
    ∃ answer, (session.step roots (.onIterator number access.request)).1 = .ok answer

theorem step_onIterator_of_unchanged (h : session.iterators[number]? = some it)
    {request : IteratorRequest} {answer : Except Refusal Answer}
    (hrespond : it.respond request = (answer, it)) :
    session.step roots (.onIterator number request) = (answer, session) := by
  rw [step_onIterator h, hrespond]
  exact congrArg (Prod.mk answer) (set_iterators_self h)

/-- A sound iterator answers by what it is. -/
theorem stands_of_sound (roots : ρ → Store σ) (h : session.iterators[number]? = some it) (hsound : it.Sound) :
    session.Stands roots number it.bounds it.valid it.error? where
  answers_valid := step_onIterator_of_unchanged h rfl
  answers_error := step_onIterator_of_unchanged h rfl
  answers_bounds := step_onIterator_of_unchanged h rfl
  invalid_of_error herror := Iterator.valid_eq_false_of_entry?_eq_none (hsound.entry?_eq_none herror)
  refuses hvalid access :=
    step_onIterator_of_unchanged h (Iterator.respond_access_of_not_valid hvalid access)
  grants hvalid access := by
    rw [step_onIterator h]
    exact Iterator.respond_access_of_valid hvalid access

/-- Closing leaves a sound iterator invalid, with its error; closing it again changes nothing. -/
theorem step_close_of_sound (roots : ρ → Store σ) (h : session.iterators[number]? = some it)
    (hsound : it.Sound) :
    ∃ closed, session.step roots (.onIterator number .close) = (.ok .done, closed) ∧
      closed.Stands roots number it.bounds false it.error? ∧
      closed.step roots (.onIterator number .close) = (.ok .done, closed) := by
  have hclosed : (session.step roots (.onIterator number .close)).2.iterators[number]? = some it.close.2 := by
    rw [getElem?_iterators_onIterator h .close, it.respond_close]
  rw [step_onIterator h, it.respond_close] at hclosed ⊢
  have hstands := stands_of_sound roots hclosed hsound.close
  have hagain : it.close.2.respond .close = (.ok .done, it.close.2) := by
    rw [Iterator.respond_close, Iterator.close_close]
  refine ⟨_, rfl, ?_, step_onIterator_of_unchanged hclosed hagain⟩
  rwa [Iterator.bounds_close, Iterator.valid_close, Iterator.error?_close] at hstands

/-! ### Runs -/

/-- What becomes of a sound iterator in a step continues it. -/
theorem continues_step (roots : ρ → Store σ) (h : session.iterators[number]? = some it)
    (hsound : it.Sound) (step : Step) :
    ∃ later, (session.step roots step).2.iterators[number]? = some later ∧ later.Sound ∧
      it.Continues later := by
  obtain ⟨request, rfl, hafter, -⟩ | ⟨-, hafter, -⟩ := iterators_step roots h step
  · exact ⟨_, hafter, hsound.respond request, hsound.continues_respond request⟩
  · exact ⟨it, hafter, hsound, .refl it⟩

theorem continues_run (roots : ρ → Store σ) (h : session.iterators[number]? = some it)
    (hsound : it.Sound) (steps : List Step) :
    ∃ later, (session.run roots steps).2.iterators[number]? = some later ∧ later.Sound ∧
      it.Continues later := by
  induction steps generalizing session it with
  | nil => exact ⟨it, h, hsound, .refl it⟩
  | cons step steps ih =>
    obtain ⟨between, hbetween, hsound', hcontinues⟩ := continues_step roots h hsound step
    obtain ⟨later, hlater, hsound'', hcontinues'⟩ := ih hbetween hsound'
    exact ⟨later, hlater, hsound'', hcontinues.trans hcontinues'⟩

/-- An iterator with flags that is sent the requests of the steps stays in step with the iterator of the
session. -/
theorem flagged_run (roots : ρ → Store σ) {flagged : Flagged} (hsync : flagged.InSync)
    (h : session.iterators[number]? = some flagged.erase) (steps : List Step) :
    let kept := flagged.after (steps.filterMap (Step.requestTo? number))
    kept.InSync ∧ (session.run roots steps).2.iterators[number]? = some kept.erase := by
  induction steps generalizing session flagged with
  | nil => exact ⟨hsync, h⟩
  | cons step steps ih =>
    obtain ⟨request, rfl, hafter, -⟩ | ⟨hother, hafter, -⟩ := iterators_step roots h step
    · obtain ⟨-, herase, hsync'⟩ := hsync.respond request
      rw [List.filterMap_cons_some (Step.requestTo?_self number request)]
      exact ih hsync' (hafter.trans (congrArg some herase.symm))
    · rw [List.filterMap_cons_none (Step.requestTo?_of_ne hother)]
      exact ih hsync hafter

/-- **Iterators keep their contract.**  A session on memories and on engines, whatever their cursors yield,
makes an iterator, of a store or of a view of any depth, and takes any steps.  The iterator then answers
with the bounds with which it was made; it has an error only if it is invalid, and is refused to be read and
moved just if it is.  It can be closed, which leaves it invalid with its error, and closing it again changes
nothing.  After any further steps it is still invalid if it was, and still has its error if it had one.

The same holds of an iterator whose views keep flags: it is answered the same, and each of its flags says
what the source of its view is. -/
theorem iterator_keeps_contract (hroots : ∀ name, (roots name).Assembled) (session : Session ρ σ)
    {n : Nat} {request : StoreRequest} {direction : Direction} {bounds : Bounds}
    (hwalk : request.walk? = some (direction, bounds)) {number : Nat}
    (hmade : (session.step roots (.onStore n request)).1 = .ok (.made number)) (before : List Step) :
    let made := (session.step roots (.onStore n request)).2
    let reached := (made.run roots before).2
    (∃ valid error, reached.Stands roots number bounds valid error ∧
      (∃ closed, reached.step roots (.onIterator number .close) = (.ok .done, closed) ∧
        closed.Stands roots number bounds false error ∧
        closed.step roots (.onIterator number .close) = (.ok .done, closed)) ∧
      ∀ after, ∃ valid' error', (reached.run roots after).2.Stands roots number bounds valid' error' ∧
        (valid = false → valid' = false) ∧ (error ≠ none → error' = error)) ∧
    ∃ it, made.iterators[number]? = some it ∧
      let kept := (Flagged.ofIterator it).after (before.filterMap (Step.requestTo? number))
      kept.InSync ∧ ∀ request,
        (kept.respond request).1 = (reached.step roots (.onIterator number request)).1 := by
  intro made reached
  obtain ⟨it, hit, hsound, rfl⟩ := iterator_of_made hroots hwalk hmade
  obtain ⟨later, hlater, hsound', hcontinues⟩ := continues_run roots hit hsound before
  refine ⟨⟨later.valid, later.error?, ?_, ?_, ?_⟩, it, hit, ?_⟩
  · rw [← hcontinues.bounds_eq]
    exact stands_of_sound roots hlater hsound'
  · rw [← hcontinues.bounds_eq]
    exact step_close_of_sound roots hlater hsound'
  · intro after
    obtain ⟨last, hlast, hsound'', hcontinues'⟩ := continues_run roots hlater hsound' after
    refine ⟨last.valid, last.error?, ?_, hcontinues'.invalid, ?_⟩
    · rw [← hcontinues.bounds_eq, ← hcontinues'.bounds_eq]
      exact stands_of_sound roots hlast hsound''
    · intro herror
      obtain ⟨error, herror⟩ := Option.ne_none_iff_exists'.1 herror
      rw [herror, hcontinues'.error error herror]
  · have hflagged : made.iterators[number]? = some (Flagged.ofIterator it).erase := by
      rw [Flagged.erase_ofIterator, hit]
    obtain ⟨hsync, hkept⟩ := flagged_run roots (Flagged.inSync_ofIterator it) hflagged before
    refine ⟨hsync, fun request => ?_⟩
    rw [step_onIterator hkept]
    exact (hsync.respond request).1

/-- A view of a view on an engine whose cursors fail at their second item: the iterator is moved once, and a
write and a refused use come behind. -/
theorem iterator_keeps_contract_scripted :
    let roots := fun _ : Unit => (Scripted.engine false).store
    let torn : Scripted := { Scripted.empty with
      contents := .ofList [⟨[1, 2, 3], [7]⟩, ⟨[1, 2, 4], [8]⟩]
      itemFault := some (1, "torn") }
    let session := ((ofRoot () torn).run roots [.onStore 0 (.view [1]), .onStore 1 (.view [2])]).2
    let made := (session.step roots (.onStore 2 (.iterate .ascending ⟨some [3], none⟩))).2
    let reached := (made.run roots [.onIterator 0 .next, .onStore 2 (.write false (.set [5] [9])),
      .onIterator 0 .value]).2
    reached.Stands roots 0 ⟨some [3], none⟩ false (some (.backend "torn")) := by
  intro roots torn session made reached
  obtain ⟨⟨valid, error, hstands, -⟩, -⟩ := iterator_keeps_contract
    (fun _ => .engine (Scripted.engine false)) session
    (show (StoreRequest.iterate .ascending ⟨some [3], none⟩).walk? = some (.ascending, ⟨some [3], none⟩)
      from rfl)
    (show (session.step roots (.onStore 2 (.iterate .ascending ⟨some [3], none⟩))).1 = .ok (.made 0)
      from rfl)
    [.onIterator 0 .next, .onStore 2 (.write false (.set [5] [9])), .onIterator 0 .value]
  have hvalid : Answer.flag false = .flag valid :=
    Except.ok.inj (congrArg Prod.fst hstands.answers_valid)
  have herror : Answer.error (some (.backend "torn")) = .error error :=
    Except.ok.inj (congrArg Prod.fst hstands.answers_error)
  cases hvalid
  cases herror
  exact hstands

end Session

end OrderedStore
