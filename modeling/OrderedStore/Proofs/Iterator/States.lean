import OrderedStore.Proofs.Session.Iterators
import OrderedStore.Proofs.Simulation.Iterator

/-!
# The states of an iterator

An iterator is valid until it ends, is closed, or meets an error.  From then on it is invalid, whatever it
is asked, and its error stays as it is.

* `Iterator.Sound` says that an error has ended the iterator.
* `Iterator.Continues` says what an iterator keeps, `Iterator.Sound.continues_respond` that
  every request keeps it.
* `Iterator.respond_of_not_valid` says that only closing changes an invalid iterator.
-/

namespace OrderedStore.Iterator

variable {it : Iterator}

/-! ### Invalid iterators -/

theorem entry?_eq_none_of_not_valid (h : it.valid = false) : it.entry? = none := by
  rwa [valid, Option.isSome_eq_false_iff, Option.isNone_iff_eq_none] at h

theorem valid_eq_false_of_entry?_eq_none (h : it.entry? = none) : it.valid = false := by
  rw [valid, h]
  rfl

@[simp] theorem valid_close (it : Iterator) : it.close.2.valid = false :=
  valid_eq_false_of_entry?_eq_none (entry?_close it)

/-- Closing again changes nothing. -/
@[simp] theorem close_close (it : Iterator) : it.close.2.close = it.close := by
  induction it with
  | snapshot => rfl
  | cursor => rfl
  | view stem bounds source ih => rw [close, close, ih]

/-- A view is valid only where its source is. -/
theorem valid_of_valid_view {stem : Bytes} {bounds : Bounds} (h : (view stem bounds it).valid = true) :
    it.valid = true := by
  cases hentry : it.entry? with
  | some entry => exact valid_of_entry?_eq_some hentry
  | none =>
    rw [valid, entry?, hentry] at h
    cases h

/-- Only closing changes an invalid iterator. -/
theorem respond_of_not_valid (h : it.valid = false) {request : IteratorRequest} (hopen : request ≠ .close) :
    (it.respond request).2 = it := by
  have hentry := entry?_eq_none_of_not_valid h
  cases request with
  | close => exact absurd rfl hopen
  | next => rw [respond, next?, h]; rfl
  | key => rw [respond, key?, hentry]; rfl
  | value => rw [respond, value?, hentry]; rfl
  | drain count => rw [respond, drain_of_entry?_eq_none hentry]
  | valid => rfl
  | entry => rfl
  | bounds => rfl
  | error => rfl

/-! ### Errors -/

/-- An error has ended the iterator. -/
def Sound : Iterator → Prop
  | snapshot _ _ => True
  | cursor _ current _ failure => failure ≠ none → current = none
  | view _ _ source => source.Sound

theorem sound_draw (bounds : Bounds) (items : List Item) : (draw bounds none items).Sound := by
  cases items with
  | nil => exact absurd rfl
  | cons item rest =>
    cases item with
    | error error => exact fun _ => rfl
    | ok entry =>
      rw [draw]
      split
      · exact absurd rfl
      · exact absurd rfl

theorem Sound.entry?_eq_none (h : it.Sound) (herror : it.error? ≠ none) : it.entry? = none := by
  induction it with
  | snapshot => exact absurd rfl herror
  | cursor bounds current rest failure => exact h herror
  | view stem bounds source ih =>
    unfold entry?
    rw [ih h herror]
    rfl

theorem Sound.error?_eq_none (h : it.Sound) (hvalid : it.valid = true) : it.error? = none := by
  by_contra herror
  rw [valid, h.entry?_eq_none herror] at hvalid
  cases hvalid

theorem Sound.advance (h : it.Sound) (hvalid : it.valid = true) : it.advance.Sound := by
  induction it with
  | snapshot => trivial
  | cursor bounds current rest failure =>
    have hnone : failure = none := h.error?_eq_none hvalid
    rw [Iterator.advance, hnone]
    exact sound_draw bounds rest
  | view stem bounds source ih => exact ih h (valid_of_valid_view hvalid)

theorem Sound.close (h : it.Sound) : it.close.2.Sound := by
  induction it with
  | snapshot => trivial
  | cursor => exact fun _ => rfl
  | view stem bounds source ih => exact ih h

/-! ### What an iterator keeps -/

/-- Every request keeps what moving a valid iterator and closing keep. -/
theorem respond_preserves {P : Iterator → Prop}
    (hadvance : ∀ it : Iterator, P it → it.valid = true → P it.advance)
    (hclose : ∀ it : Iterator, P it → P it.close.2) (h : P it) (request : IteratorRequest) :
    P (it.respond request).2 := by
  have hdrain : ∀ count, P (it.drain count).2 := by
    intro count
    induction count generalizing it with
    | zero => exact h
    | succ count ih =>
      cases hentry : it.entry? with
      | none => rwa [drain_of_entry?_eq_none hentry]
      | some entry =>
        rw [drain_of_entry?_eq_some hentry]
        exact ih (hadvance it h (valid_of_entry?_eq_some hentry))
  cases request with
  | next =>
    rw [respond, next?]
    by_cases hvalid : it.valid = true
    · rw [if_pos hvalid]
      exact hadvance it h hvalid
    · rwa [if_neg hvalid]
  | key => rw [respond]; cases it.key? <;> exact h
  | value => rw [respond]; cases it.value? <;> exact h
  | drain count => exact hdrain _
  | close =>
    rw [it.respond_close]
    exact hclose it h
  | valid => exact h
  | entry => exact h
  | bounds => exact h
  | error => exact h

theorem Sound.respond (h : it.Sound) (request : IteratorRequest) : (it.respond request).2.Sound :=
  respond_preserves (fun _ => Sound.advance) (fun _ => Sound.close) h request

theorem Sound.drain (h : it.Sound) (count : Nat) : (it.drain count).2.Sound :=
  h.respond (.drain (some count))

theorem bounds_draw (bounds : Bounds) (failure : Option StoreError) (items : List Item) :
    (draw bounds failure items).bounds = bounds := by
  unfold draw
  split
  · split <;> rfl
  · rfl
  · rfl

theorem bounds_advance (it : Iterator) : it.advance.bounds = it.bounds := by
  cases it with
  | snapshot => rfl
  | cursor bounds current rest failure => exact bounds_draw bounds failure rest
  | view => rfl

/-- The second iterator is what may become of the first: it has the same bounds, is invalid if the first
one is, and has its error if there is one. -/
structure Continues (it later : Iterator) : Prop where
  bounds_eq : later.bounds = it.bounds
  invalid : it.valid = false → later.valid = false
  error : ∀ error, it.error? = some error → later.error? = some error

theorem Continues.refl (it : Iterator) : it.Continues it := ⟨rfl, id, fun _ => id⟩

theorem Continues.trans {later last : Iterator} (h : it.Continues later) (h' : later.Continues last) :
    it.Continues last :=
  ⟨h'.bounds_eq.trans h.bounds_eq, fun hvalid => h'.invalid (h.invalid hvalid),
    fun error herror => h'.error error (h.error error herror)⟩

theorem continues_close (it : Iterator) : it.Continues it.close.2 :=
  ⟨bounds_close it, fun _ => valid_close it, fun _ herror => (error?_close it).trans herror⟩

/-- Only a valid iterator is moved, and it has no error. -/
theorem Sound.continues_advance (h : it.Sound) (hvalid : it.valid = true) : it.Continues it.advance where
  bounds_eq := bounds_advance it
  invalid hinvalid := by
    rw [hvalid] at hinvalid
    cases hinvalid
  error error herror := by
    rw [h.error?_eq_none hvalid] at herror
    cases herror

/-- Whatever an iterator is asked, it keeps its bounds, being invalid, and its error. -/
theorem Sound.continues_respond (h : it.Sound) (request : IteratorRequest) :
    it.Continues (it.respond request).2 := by
  refine (respond_preserves (P := fun later => later.Sound ∧ it.Continues later) ?_ ?_
    ⟨h, .refl it⟩ request).2
  · rintro later ⟨hsound, hlater⟩ hvalid
    exact ⟨hsound.advance hvalid, hlater.trans (hsound.continues_advance hvalid)⟩
  · rintro later ⟨hsound, hlater⟩
    exact ⟨hsound.close, hlater.trans (continues_close later)⟩

end OrderedStore.Iterator
