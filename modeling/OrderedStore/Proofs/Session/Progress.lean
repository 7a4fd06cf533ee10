import OrderedStore.Proofs.Session.Contract

/-!
# How far an iterator has come

However an iterator of a session is used, what it answers follows from what it would show if it were
drained at once, and from the entries that it has yielded since.

* `Iterator.Behind` is what is known of an iterator that has yielded some entries.
* `Session.left_run` follows an iterator that is not closed, `Session.ended_run` one that is invalid.
* `Session.behind_run` says that what becomes of an iterator stands behind what it has yielded.
-/

namespace OrderedStore

/-! ### Iterators -/

namespace Iterator

variable {it later : Iterator} {yielded : List Entry}

/-- An iterator has an error just if it would end with it at once. -/
theorem Sound.error?_eq_some_iff (h : it.Sound) {error : StoreError} :
    it.error? = some error ↔ it.drainAll.1 = [] ∧ it.drainAll.2.error? = some error := by
  cases hentry : it.entry? with
  | none => simp [drainAll_of_entry?_eq_none hentry]
  | some entry =>
    rw [h.error?_eq_none (valid_of_entry?_eq_some hentry), drainAll_of_entry?_eq_some hentry]
    simp

/-- An invalid iterator stays invalid, keeps its error, and passes nothing. -/
theorem respond_of_ended (h : it.valid = false) (request : IteratorRequest) :
    (it.respond request).2.valid = false ∧ (it.respond request).2.error? = it.error? ∧
      it.passed request = [] := by
  have hentry := entry?_eq_none_of_not_valid h
  by_cases hclose : request = .close
  · rw [hclose, it.respond_close]
    exact ⟨valid_close it, error?_close it, rfl⟩
  · rw [respond_of_not_valid h hclose]
    refine ⟨h, rfl, ?_⟩
    cases request with
    | next => rw [passed, hentry]; rfl
    | drain count => rw [passed, drain_of_entry?_eq_none hentry]
    | _ => rfl

/-- The later iterator is what becomes of the first when it has yielded these entries: they come first
among those that it shows, it stands on the next of them or is invalid, it is invalid when they are all,
and then has the error with which the first one ends; otherwise it has none. -/
structure Behind (it : Iterator) (yielded : List Entry) (later : Iterator) : Prop where
  first : yielded <+: it.drainAll.1
  entry : later.valid = true → later.entry? = it.drainAll.1[yielded.length]?
  ended : yielded = it.drainAll.1 → later.valid = false
  error : ∀ error, later.error? = some error ↔
    yielded = it.drainAll.1 ∧ it.drainAll.2.error? = some error

/-- What is left stands behind what has been yielded. -/
theorem behind_of_left (hsound : later.Sound)
    (hleft : (yielded ++ later.drainAll.1, later.drainAll.2) = it.drainAll) : it.Behind yielded later := by
  have hall : yielded = it.drainAll.1 ↔ later.drainAll.1 = [] := by
    rw [← hleft]
    exact List.self_eq_append_right
  refine ⟨⟨_, congrArg Prod.fst hleft⟩, fun hvalid => ?_, fun hyielded => ?_, fun error => ?_⟩
  · obtain ⟨entry, hentry⟩ := Option.isSome_iff_exists.1 hvalid
    rw [← hleft, List.getElem?_append_right Nat.le.refl, Nat.sub_self, drainAll_of_entry?_eq_some hentry,
      hentry]
    rfl
  · cases hentry : later.entry? with
    | none => exact valid_eq_false_of_entry?_eq_none hentry
    | some entry =>
      have hnil := hall.1 hyielded
      rw [drainAll_of_entry?_eq_some hentry] at hnil
      cases hnil
  · rw [hsound.error?_eq_some_iff, hall, ← hleft]

/-- What becomes of an invalid iterator stands where that one does. -/
theorem Behind.of_ended {last : Iterator} (h : it.Behind yielded later) (hvalid : last.valid = false)
    (herror : last.error? = later.error?) : it.Behind yielded last where
  first := h.first
  entry hvalid' := by
    rw [hvalid] at hvalid'
    cases hvalid'
  ended _ := hvalid
  error error := herror ▸ h.error error

end Iterator

/-! ### Sessions -/

namespace Session

variable {ρ σ : Type} (roots : ρ → Store σ) {session : Session ρ σ} {number : Nat} {it : Iterator}

theorem yielded_append (session : Session ρ σ) (first second : List Step) :
    session.yielded roots number (first ++ second) =
      session.yielded roots number first ++ (session.run roots first).2.yielded roots number second := by
  induction first generalizing session with
  | nil => rfl
  | cons step first ih =>
    rw [List.cons_append, yielded, yielded, ih, List.append_assoc]
    rfl

/-- An iterator that is not closed yields its entries in turn, and ends where it would have ended. -/
theorem left_run (h : session.iterators[number]? = some it) {steps : List Step}
    (hsteps : .onIterator number .close ∉ steps) :
    ∃ later, (session.run roots steps).2.iterators[number]? = some later ∧
      (session.yielded roots number steps ++ later.drainAll.1, later.drainAll.2) = it.drainAll := by
  induction steps generalizing session it with
  | nil => exact ⟨it, h, rfl⟩
  | cons step steps ih =>
    obtain ⟨hstep, hrest⟩ := not_or.1 (mt List.mem_cons.2 hsteps)
    obtain ⟨between, hbetween, hleft⟩ : ∃ between,
        (session.step roots step).2.iterators[number]? = some between ∧
          (session.passed number step ++ between.drainAll.1, between.drainAll.2) = it.drainAll := by
      obtain ⟨request, rfl, hafter, hpassed⟩ | ⟨-, hafter, hpassed⟩ := iterators_step roots h step
      · have hopen : request ≠ .close := fun hclose => hstep (hclose ▸ rfl)
        exact ⟨_, hafter, by rw [hpassed, it.respond_drainAll_of_ne_close hopen]⟩
      · exact ⟨it, hafter, by rw [hpassed]; rfl⟩
    obtain ⟨later, hlater, hleft'⟩ := ih hbetween hrest
    refine ⟨later, hlater, ?_⟩
    rw [← hleft, ← hleft', yielded, List.append_assoc]

/-- An invalid iterator yields nothing and stays invalid, with its error. -/
theorem ended_run (h : session.iterators[number]? = some it) (hvalid : it.valid = false)
    (steps : List Step) :
    ∃ later, (session.run roots steps).2.iterators[number]? = some later ∧ later.valid = false ∧
      later.error? = it.error? ∧ session.yielded roots number steps = [] := by
  induction steps generalizing session it with
  | nil => exact ⟨it, h, hvalid, rfl, rfl⟩
  | cons step steps ih =>
    obtain ⟨request, rfl, hafter, hpassed⟩ | ⟨-, hafter, hpassed⟩ := iterators_step roots h step
    · obtain ⟨hvalid', herror, hnil⟩ := it.respond_of_ended hvalid request
      obtain ⟨later, hlater, hlast, herror', hyielded⟩ := ih hafter hvalid'
      exact ⟨later, hlater, hlast, herror'.trans herror, by rw [yielded, hpassed, hnil, hyielded]; rfl⟩
    · obtain ⟨later, hlater, hlast, herror, hyielded⟩ := ih hafter hvalid
      exact ⟨later, hlater, hlast, herror, by rw [yielded, hpassed, hyielded]; rfl⟩

/-- Whatever steps are taken, what becomes of an iterator stands behind the entries that it has yielded; and
unless it is closed, it is invalid only when they are all. -/
theorem behind_run (h : session.iterators[number]? = some it) (hsound : it.Sound) (steps : List Step) :
    ∃ later, (session.run roots steps).2.iterators[number]? = some later ∧
      it.Behind (session.yielded roots number steps) later ∧
      (.onIterator number .close ∉ steps → later.valid = false →
        session.yielded roots number steps = it.drainAll.1) := by
  by_cases hclose : .onIterator number .close ∈ steps
  · -- Up to the first closing nothing is dropped, and behind it nothing changes.
    obtain ⟨before, after, rfl, hbefore⟩ := List.eq_append_cons_of_mem hclose
    obtain ⟨between, hbetween, hleft⟩ := left_run roots h hbefore
    obtain ⟨reached, hreached, hsound', -⟩ := continues_run roots h hsound before
    cases hbetween.symm.trans hreached
    have hbehind := Iterator.behind_of_left hsound' hleft
    have hclosed : ((session.run roots before).2.step roots
        (.onIterator number .close)).2.iterators[number]? = some between.close.2 := by
      rw [getElem?_iterators_onIterator hbetween .close, between.respond_close]
    obtain ⟨later, hlater, hvalid, herror, hyielded⟩ := ended_run roots hclosed between.valid_close after
    refine ⟨later, ?_, ?_, fun hopen => absurd hclose hopen⟩
    · rw [run_append]
      exact hlater
    · have hnone : (session.run roots before).2.yielded roots number
          (.onIterator number .close :: after) = [] := by
        rw [yielded, passed, if_pos rfl, hbetween, hyielded]
        rfl
      rw [yielded_append, hnone, List.append_nil]
      exact hbehind.of_ended hvalid (herror.trans (Iterator.error?_close between))
  · obtain ⟨later, hlater, hleft⟩ := left_run roots h hclose
    obtain ⟨reached, hreached, hsound', -⟩ := continues_run roots h hsound steps
    cases hlater.symm.trans hreached
    refine ⟨later, hlater, Iterator.behind_of_left hsound' hleft, fun _ hvalid => ?_⟩
    have hentry := Iterator.entry?_eq_none_of_not_valid hvalid
    rw [← hleft, Iterator.drainAll_of_entry?_eq_none hentry, List.append_nil]

end Session

end OrderedStore
