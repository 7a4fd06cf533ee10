import Mathlib.Data.List.Forall2

/-!
# Lists that agree place by place

Reading and replacing an element of two lists whose elements are related place by place, and comparing
such lists by way of a third one.
-/

namespace OrderedStore

variable {α β : Type} {R : α → β → Prop} {as : List α} {bs : List β}

/-- Both lists have an element at a place, and the two are related, or neither has one. -/
theorem forall₂_getElem? (h : List.Forall₂ R as bs) (n : Nat) :
    (as[n]? = none ∧ bs[n]? = none) ∨ ∃ a b, as[n]? = some a ∧ bs[n]? = some b ∧ R a b := by
  induction h generalizing n with
  | nil => exact .inl ⟨rfl, rfl⟩
  | @cons a b _ _ hab _ ih =>
    cases n with
    | zero => exact .inr ⟨a, b, rfl, rfl, hab⟩
    | succ n => exact ih n

theorem forall₂_set (h : List.Forall₂ R as bs) (n : Nat) {a : α} {b : β} (hab : R a b) :
    List.Forall₂ R (as.set n a) (bs.set n b) := by
  induction h generalizing n with
  | nil => exact .nil
  | cons hcd htail ih =>
    cases n with
    | zero => exact .cons hab htail
    | succ n => exact .cons hcd (ih n)

theorem forall₂_comp {γ : Type} {cs : List γ} {P : β → γ → Prop} {Q : α → γ → Prop}
    (hQ : ∀ a b c, R a b → P b c → Q a c) (h : List.Forall₂ R as bs) (h' : List.Forall₂ P bs cs) :
    List.Forall₂ Q as cs := by
  induction h generalizing cs with
  | nil =>
    cases h'
    exact .nil
  | cons hab _ ih =>
    cases h' with
    | cons hbc htail => exact .cons (hQ _ _ _ hab hbc) (ih htail)

end OrderedStore
