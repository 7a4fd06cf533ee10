import Mathlib.Data.List.Forall2
import Mathlib.Logic.Relation
import OrderedStore.StoreM

/-!
# Actions that agree

Two actions on different states agree if, from related states, they give related answers and leave
related states.  Agreement is kept by sequencing, so that it can be read off the calls of which an
action is made.

* `Agree` compares actions that cannot fail, `CallsAgree` calls that may fail.
* `Agree.bind` and `CallsAgree.bind` compare one action behind another.
* `Agree.comp` and `CallsAgree.comp` compare two actions by way of a third one.
* `CallsAgree.same` says that a call keeps a property of the state.
-/

namespace OrderedStore

variable {σ τ υ α β γ δ ε : Type}

/-- From related states, the actions give related answers and leave related states. -/
def Agree (R : σ → τ → Prop) (Q : α → β → Prop) (first : StateM σ α) (second : StateM τ β) : Prop :=
  ∀ s t, R s t → Q (first.run s).1 (second.run t).1 ∧ R (first.run s).2 (second.run t).2

/-- Two outcomes are the same error, or related answers. -/
inductive SameOutcome (Q : α → β → Prop) : Except ε α → Except ε β → Prop where
  | ok {a : α} {b : β} (h : Q a b) : SameOutcome Q (.ok a) (.ok b)
  | error (error : ε) : SameOutcome Q (.error error) (.error error)

/-- From related states, the calls fail with the same error or give related answers, and leave
related states in either case. -/
def CallsAgree (R : σ → τ → Prop) (Q : α → β → Prop) (first : ExceptT ε (StateM σ) α)
    (second : ExceptT ε (StateM τ) β) : Prop :=
  Agree R (SameOutcome Q) first.run second.run

/-- The same state on both sides, with a property. -/
def Same (I : σ → Prop) (s t : σ) : Prop := s = t ∧ I s

/-! ### Outcomes -/

theorem SameOutcome.mono {P Q : α → β → Prop} (hPQ : ∀ a b, P a b → Q a b)
    {first : Except ε α} {second : Except ε β} (h : SameOutcome P first second) :
    SameOutcome Q first second := by
  cases h with
  | ok h => exact .ok (hPQ _ _ h)
  | error error => exact .error error

theorem SameOutcome.comp {P : α → β → Prop} {Q : β → γ → Prop} {P' : α → γ → Prop}
    {first : Except ε α} {second : Except ε β} {third : Except ε γ} (h : SameOutcome P first second)
    (h' : SameOutcome Q second third) (hP : ∀ a b c, P a b → Q b c → P' a c) :
    SameOutcome P' first third := by
  cases h with
  | ok h =>
    cases h' with
    | ok h' => exact .ok (hP _ _ _ h h')
  | error error =>
    cases h'
    exact .error error

theorem SameOutcome.symm {P : α → β → Prop} {P' : β → α → Prop} (hP : ∀ a b, P a b → P' b a)
    {first : Except ε α} {second : Except ε β} (h : SameOutcome P first second) :
    SameOutcome P' second first := by
  cases h with
  | ok h => exact .ok (hP _ _ h)
  | error error => exact .error error

theorem SameOutcome.eq_error {Q : α → β → Prop} {first : Except ε α} {error : ε}
    (h : SameOutcome Q first (.error error)) : first = .error error := by
  cases h
  rfl

theorem sameOutcome_eq_iff {first second : Except ε α} :
    SameOutcome Eq first second ↔ first = second := by
  constructor
  · rintro (⟨⟨⟩⟩ | _) <;> rfl
  · rintro rfl
    cases first with
    | ok a => exact .ok rfl
    | error error => exact .error error

/-! ### Actions that cannot fail -/

namespace Agree

variable {R : σ → τ → Prop} {P : α → β → Prop} {Q : γ → δ → Prop}

theorem pure {a : α} {b : β} (h : P a b) : Agree R P (Pure.pure a) (Pure.pure b) :=
  fun _ _ hR => ⟨h, hR⟩

theorem bind {first : StateM σ α} {second : StateM τ β} {next : α → StateM σ γ}
    {next' : β → StateM τ δ} (h : Agree R P first second)
    (hnext : ∀ a b, P a b → Agree R Q (next a) (next' b)) :
    Agree R Q (first >>= next) (second >>= next') := by
  intro s t hR
  obtain ⟨hP, hR'⟩ := h s t hR
  exact hnext _ _ hP _ _ hR'

theorem mono {P' : α → β → Prop} {first : StateM σ α} {second : StateM τ β}
    (h : Agree R P first second) (hP : ∀ a b, P a b → P' a b) : Agree R P' first second := by
  intro s t hR
  obtain ⟨hanswer, hR'⟩ := h s t hR
  exact ⟨hP _ _ hanswer, hR'⟩

end Agree

/-! ### One action after the other -/

/-- Actions that agree with a third one, by way of its states. -/
theorem Agree.comp {R : σ → τ → Prop} {R' : τ → υ → Prop} {P : α → β → Prop} {Q : β → γ → Prop}
    {P' : α → γ → Prop} {first : StateM σ α} {second : StateM τ β} {third : StateM υ γ}
    (h : Agree R P first second) (h' : Agree R' Q second third)
    (hP : ∀ a b c, P a b → Q b c → P' a c) : Agree (Relation.Comp R R') P' first third := by
  rintro s u ⟨t, hR, hR'⟩
  obtain ⟨hanswer, hstate⟩ := h s t hR
  obtain ⟨hanswer', hstate'⟩ := h' t u hR'
  exact ⟨hP _ _ _ hanswer hanswer', _, hstate, hstate'⟩

theorem Agree.symm {R : σ → τ → Prop} {P : α → β → Prop} {first : StateM σ α} {second : StateM τ β}
    (h : Agree R P first second) : Agree (flip R) (flip P) second first :=
  fun _ _ hR => h _ _ hR

/-- An action that keeps a property of the state agrees with itself. -/
theorem Agree.same {I : σ → Prop} {Q : α → α → Prop} {action : StateM σ α} (hQ : ∀ a, Q a a)
    (h : ∀ s, I s → I (action.run s).2) : Agree (Same I) Q action action := by
  rintro s _ ⟨rfl, hs⟩
  exact ⟨hQ _, rfl, h s hs⟩

/-- An action agrees with itself. -/
theorem Agree.refl {Q : α → α → Prop} (hQ : ∀ a, Q a a) (action : StateM σ α) :
    Agree Eq Q action action := by
  rintro s _ rfl
  exact ⟨hQ _, rfl⟩

/-! ### Calls that may fail -/

namespace CallsAgree

variable {R : σ → τ → Prop} {P : α → β → Prop} {Q : γ → δ → Prop}

theorem pure {a : α} {b : β} (h : P a b) :
    CallsAgree R P (Pure.pure a : ExceptT ε (StateM σ) α) (Pure.pure b : ExceptT ε (StateM τ) β) :=
  Agree.pure (.ok h)

theorem throw (error : ε) :
    CallsAgree R P (throw error : ExceptT ε (StateM σ) α) (throw error : ExceptT ε (StateM τ) β) :=
  Agree.pure (.error error)

theorem bind {first : ExceptT ε (StateM σ) α} {second : ExceptT ε (StateM τ) β}
    {next : α → ExceptT ε (StateM σ) γ} {next' : β → ExceptT ε (StateM τ) δ}
    (h : CallsAgree R P first second)
    (hnext : ∀ a b, P a b → CallsAgree R Q (next a) (next' b)) :
    CallsAgree R Q (first >>= next) (second >>= next') := by
  show Agree R (SameOutcome Q) (first.run >>= ExceptT.bindCont next)
    (second.run >>= ExceptT.bindCont next')
  refine Agree.bind h ?_
  intro outcome outcome' houtcome
  cases houtcome with
  | ok hP => exact hnext _ _ hP
  | error error => exact Agree.pure (.error error)

theorem map {first : ExceptT ε (StateM σ) α} {second : ExceptT ε (StateM τ) β} {f : α → γ} {g : β → δ}
    (h : CallsAgree R P first second) (hQ : ∀ a b, P a b → Q (f a) (g b)) :
    CallsAgree R Q (f <$> first) (g <$> second) := by
  rw [map_eq_pure_bind, map_eq_pure_bind]
  exact h.bind fun a b hP => .pure (hQ a b hP)

theorem comp {R' : τ → υ → Prop} {Q : β → γ → Prop} {P' : α → γ → Prop}
    {first : ExceptT ε (StateM σ) α} {second : ExceptT ε (StateM τ) β}
    {third : ExceptT ε (StateM υ) γ} (h : CallsAgree R P first second)
    (h' : CallsAgree R' Q second third) (hP : ∀ a b c, P a b → Q b c → P' a c) :
    CallsAgree (Relation.Comp R R') P' first third :=
  Agree.comp h h' fun _ _ _ houtcome houtcome' => houtcome.comp houtcome' hP

theorem symm {first : ExceptT ε (StateM σ) α} {second : ExceptT ε (StateM τ) β}
    (h : CallsAgree R P first second) {P' : β → α → Prop} (hP : ∀ a b, P a b → P' b a) :
    CallsAgree (flip R) P' second first :=
  (Agree.symm h).mono fun _ _ houtcome => houtcome.symm hP

theorem refl {Q : α → α → Prop} (hQ : ∀ a, Q a a) (call : ExceptT ε (StateM σ) α) :
    CallsAgree Eq Q call call := by
  refine Agree.refl ?_ call.run
  rintro (error | a)
  · exact .error error
  · exact .ok (hQ a)

/-- A call that keeps a property of the state agrees with itself. -/
theorem same {I : σ → Prop} {Q : α → α → Prop} {call : ExceptT ε (StateM σ) α} (hQ : ∀ a, Q a a)
    (h : ∀ s, I s → I (call.run.run s).2) : CallsAgree (Same I) Q call call := by
  refine Agree.same ?_ h
  rintro (error | a)
  · exact .error error
  · exact .ok (hQ a)

/-- Reading the whole state. -/
theorem get :
    CallsAgree R R (getThe σ : ExceptT ε (StateM σ) σ) (getThe τ : ExceptT ε (StateM τ) τ) :=
  fun _ _ hR => ⟨.ok hR, hR⟩

/-- Reading and changing the whole state at once. -/
theorem modifyGet {f : σ → α × σ} {g : τ → β × τ}
    (h : ∀ s t, R s t → P (f s).1 (g t).1 ∧ R (f s).2 (g t).2) :
    CallsAgree R P (modifyGet f : ExceptT ε (StateM σ) α) (modifyGet g : ExceptT ε (StateM τ) β) :=
  fun s t hR => ⟨.ok (h s t hR).1, (h s t hR).2⟩

/-- Changing the whole state. -/
theorem modify {f : σ → σ} {g : τ → τ} (h : ∀ s t, R s t → R (f s) (g t)) :
    CallsAgree R Eq (modify f : ExceptT ε (StateM σ) PUnit)
      (modify g : ExceptT ε (StateM τ) PUnit) :=
  fun s t hR => ⟨.ok rfl, h s t hR⟩

/-- An outcome that is known before the call. -/
theorem ofExcept (outcome : Except StoreError α) :
    CallsAgree R Eq (StoreM.ofExcept outcome : StoreM σ α) (StoreM.ofExcept outcome : StoreM τ α) :=
  Agree.pure (sameOutcome_eq_iff.2 rfl)

theorem ofState {first : StateM σ α} {second : StateM τ β} (h : Agree R P first second) :
    CallsAgree R P (StoreM.ofState first) (StoreM.ofState second) := by
  intro s t hR
  obtain ⟨hP, hR'⟩ := h s t hR
  exact ⟨.ok hP, hR'⟩

/-- The outcomes of attempts are the same whenever the answers are. -/
theorem attempt {first : StoreM σ α} {second : StoreM τ α} (h : CallsAgree R Eq first second) :
    Agree R Eq first.attempt second.attempt :=
  Agree.mono h fun _ _ => sameOutcome_eq_iff.1

end CallsAgree

end OrderedStore
