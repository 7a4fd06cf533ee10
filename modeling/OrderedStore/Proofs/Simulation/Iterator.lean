import OrderedStore.Proofs.Dump.Sink
import OrderedStore.Proofs.Simulation.Agree

/-!
# Iterators that cannot be told apart

Two iterators are alike if they show the same entry, bounds and error, and stay alike however they
are moved and closed.  What is made of alike iterators is then the same, although the iterators may
be of different kinds and may bound their remaining entries differently.

* `Iterator.Alike` is the greatest such relation.
* `Iterator.Alike.drainAll` and `Iterator.Alike.writeLines_remaining_eq` compare whole walks.
-/

namespace OrderedStore

/-! ### Alike iterators -/

namespace Iterator

/-- A relation between iterators that show the same and are moved and closed in step.  Only valid
iterators are moved. -/
structure IsBisimulation (S : Iterator → Iterator → Prop) : Prop where
  entry? : ∀ {a b}, S a b → a.entry? = b.entry?
  bounds : ∀ {a b}, S a b → a.bounds = b.bounds
  error? : ∀ {a b}, S a b → a.error? = b.error?
  advance : ∀ {a b}, S a b → a.valid = true → S a.advance b.advance
  close : ∀ {a b}, S a b → S a.close.2 b.close.2

/-- The iterators cannot be told apart. -/
def Alike (a b : Iterator) : Prop := ∃ S, IsBisimulation S ∧ S a b

namespace Alike

/-- Being alike is itself a bisimulation. -/
theorem isBisimulation : IsBisimulation Alike where
  entry? := fun ⟨_, hS, h⟩ => hS.entry? h
  bounds := fun ⟨_, hS, h⟩ => hS.bounds h
  error? := fun ⟨_, hS, h⟩ => hS.error? h
  advance := fun ⟨S, hS, h⟩ hvalid => ⟨S, hS, hS.advance h hvalid⟩
  close := fun ⟨S, hS, h⟩ => ⟨S, hS, hS.close h⟩

theorem refl (it : Iterator) : Alike it it :=
  ⟨Eq, ⟨by rintro a _ rfl; rfl, by rintro a _ rfl; rfl, by rintro a _ rfl; rfl,
    by rintro a _ rfl _; rfl, by rintro a _ rfl; rfl⟩, rfl⟩

variable {a b : Iterator}

theorem trans {c : Iterator} (h : Alike a b) (h' : Alike b c) : Alike a c := by
  refine ⟨fun a c => ∃ b, Alike a b ∧ Alike b c, ⟨?_, ?_, ?_, ?_, ?_⟩, b, h, h'⟩
  · rintro a c ⟨b, h, h'⟩
    exact (isBisimulation.entry? h).trans (isBisimulation.entry? h')
  · rintro a c ⟨b, h, h'⟩
    exact (isBisimulation.bounds h).trans (isBisimulation.bounds h')
  · rintro a c ⟨b, h, h'⟩
    exact (isBisimulation.error? h).trans (isBisimulation.error? h')
  · rintro a c ⟨b, h, h'⟩ hvalid
    have hvalid' : b.valid = true := by
      rw [valid, ← isBisimulation.entry? h]
      exact hvalid
    exact ⟨b.advance, isBisimulation.advance h hvalid, isBisimulation.advance h' hvalid'⟩
  · rintro a c ⟨b, h, h'⟩
    exact ⟨b.close.2, isBisimulation.close h, isBisimulation.close h'⟩

theorem valid_eq (h : Alike a b) : a.valid = b.valid := by
  rw [valid, valid, isBisimulation.entry? h]

theorem symm (h : Alike a b) : Alike b a := by
  refine ⟨fun b a => Alike a b, ⟨?_, ?_, ?_, ?_, ?_⟩, h⟩
  · exact fun h => (isBisimulation.entry? h).symm
  · exact fun h => (isBisimulation.bounds h).symm
  · exact fun h => (isBisimulation.error? h).symm
  · exact fun h hvalid => isBisimulation.advance h (h.valid_eq ▸ hvalid)
  · exact fun h => isBisimulation.close h

theorem advance (h : Alike a b) {entry : Entry} (hentry : a.entry? = some entry) :
    Alike a.advance b.advance :=
  isBisimulation.advance h (valid_of_entry?_eq_some hentry)

/-- Moving is refused by both iterators, or leaves alike iterators. -/
theorem next? (h : Alike a b) :
    (a.next? = none ∧ b.next? = none) ∨
      (a.next? = some a.advance ∧ b.next? = some b.advance ∧ Alike a.advance b.advance) := by
  rw [Iterator.next?, Iterator.next?, ← h.valid_eq]
  by_cases hvalid : a.valid = true
  · rw [if_pos hvalid, if_pos hvalid]
    exact .inr ⟨rfl, rfl, isBisimulation.advance h hvalid⟩
  · rw [if_neg hvalid, if_neg hvalid]
    exact .inl ⟨rfl, rfl⟩

/-- Walks of the same length along alike iterators show the same and leave alike iterators. -/
theorem drain (h : Alike a b) (count : Nat) :
    (a.drain count).1 = (b.drain count).1 ∧ Alike (a.drain count).2 (b.drain count).2 := by
  induction count generalizing a b with
  | zero => exact ⟨rfl, h⟩
  | succ count ih =>
    have heq := isBisimulation.entry? h
    cases hentry : a.entry? with
    | none =>
      rw [drain_of_entry?_eq_none hentry, drain_of_entry?_eq_none (heq ▸ hentry)]
      exact ⟨rfl, h⟩
    | some entry =>
      obtain ⟨hentries, hafter⟩ := ih (h.advance hentry)
      rw [drain_of_entry?_eq_some hentry, drain_of_entry?_eq_some (heq ▸ hentry), hentries]
      exact ⟨rfl, hafter⟩

theorem drainAll (h : Alike a b) :
    a.drainAll.1 = b.drainAll.1 ∧ Alike a.drainAll.2 b.drainAll.2 := by
  -- The iterators may bound their entries differently, so both are walked up to the greater bound.
  have ha : a.drainAll = a.drain (max a.remaining b.remaining) :=
    drain_congr Nat.le.refl (Nat.le_max_left _ _)
  have hb : b.drainAll = b.drain (max a.remaining b.remaining) :=
    drain_congr Nat.le.refl (Nat.le_max_right _ _)
  rw [ha, hb]
  exact h.drain _

/-- Dumps of alike iterators are the same. -/
theorem writeLines_remaining_eq (h : Alike a b) (sink : Sink) :
    Dump.writeLines a.remaining a sink = Dump.writeLines b.remaining b sink := by
  obtain ⟨hentries, hlast⟩ := h.drainAll
  rw [Dump.writeLines_eq_writeAll, Dump.writeLines_eq_writeAll, hentries,
    Dump.ending_congr (isBisimulation.error? hlast)]

end Alike

end Iterator

end OrderedStore
