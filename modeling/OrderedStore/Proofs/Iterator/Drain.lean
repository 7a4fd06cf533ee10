import OrderedStore.Iterator

/-!
# Draining iterators

An iterator is drained by reading the entry on which it stands and moving on, as often as it is valid or as
asked for.

* `Iterator.drain_congr` says that all walks that are long enough are the same.
* `Iterator.drainAll_eq_of_entry?_eq_some` follows a whole walk by one entry.
* `Iterator.drainAll_drain` splits a whole walk in two, `Iterator.entry?_drain` says where a part of it ends.
-/

namespace OrderedStore.Iterator

variable {it : Iterator}

/-! ### Walks that are long enough -/

theorem valid_of_entry?_eq_some {entry : Entry} (h : it.entry? = some entry) :
    it.valid = true := by
  rw [valid, h]
  rfl

theorem entry?_eq_none_of_remaining_le_zero (h : it.remaining ≤ 0) :
    it.entry? = none := by
  cases hentry : it.entry? with
  | none => rfl
  | some entry =>
    have hlt := remaining_advance_lt (valid_of_entry?_eq_some hentry)
    omega

theorem remaining_advance_le {entry : Entry} {count : Nat}
    (hentry : it.entry? = some entry) (h : it.remaining ≤ count + 1) :
    it.advance.remaining ≤ count := by
  have hlt := remaining_advance_lt (valid_of_entry?_eq_some hentry)
  omega

theorem drain_of_entry?_eq_none (h : it.entry? = none) (count : Nat) :
    it.drain count = ([], it) := by
  cases count with
  | zero => rfl
  | succ count => rw [drain, h]

theorem drain_of_entry?_eq_some {entry : Entry} (h : it.entry? = some entry)
    (count : Nat) :
    it.drain (count + 1) = (entry :: (it.advance.drain count).1, (it.advance.drain count).2) := by
  rw [drain, h]

/-- All walks that are long enough are the same. -/
theorem drain_congr {m n : Nat} (hm : it.remaining ≤ m) (hn : it.remaining ≤ n) :
    it.drain m = it.drain n := by
  induction m generalizing it n with
  | zero =>
    have hentry := entry?_eq_none_of_remaining_le_zero hm
    rw [drain_of_entry?_eq_none hentry, drain_of_entry?_eq_none hentry]
  | succ m ih =>
    cases hentry : it.entry? with
    | none => rw [drain_of_entry?_eq_none hentry, drain_of_entry?_eq_none hentry]
    | some entry =>
      cases n with
      | zero =>
        -- A valid iterator has an entry left, so no count is exhausted before the other.
        exact absurd (entry?_eq_none_of_remaining_le_zero hn) (by simp [hentry])
      | succ n =>
        rw [drain_of_entry?_eq_some hentry, drain_of_entry?_eq_some hentry,
          ih (remaining_advance_le hentry hm) (remaining_advance_le hentry hn)]

/-- A walk that is long enough leaves an invalid iterator. -/
theorem valid_drain {count : Nat} (h : it.remaining ≤ count) :
    (it.drain count).2.valid = false := by
  induction count generalizing it with
  | zero =>
    rw [drain, valid, entry?_eq_none_of_remaining_le_zero h]
    rfl
  | succ count ih =>
    cases hentry : it.entry? with
    | none =>
      rw [drain_of_entry?_eq_none hentry, valid, hentry]
      rfl
    | some entry =>
      rw [drain_of_entry?_eq_some hentry]
      exact ih (remaining_advance_le hentry h)

theorem valid_drainAll (it : Iterator) : it.drainAll.2.valid = false := valid_drain Nat.le.refl

/-! ### Whole walks -/

theorem drainAll_of_entry?_eq_none (h : it.entry? = none) : it.drainAll = ([], it) :=
  drain_of_entry?_eq_none h _

theorem drainAll_eq_of_entry?_eq_some {entry : Entry} (h : it.entry? = some entry) :
    it.drainAll = (entry :: it.advance.drainAll.1, it.advance.drainAll.2) := by
  have hdrain : it.drainAll = it.drain (it.advance.remaining + it.remaining + 1) :=
    drain_congr Nat.le.refl (by omega)
  have hadvance : it.advance.drain (it.advance.remaining + it.remaining) = it.advance.drainAll :=
    drain_congr (by omega) Nat.le.refl
  rw [hdrain, drain_of_entry?_eq_some h, hadvance]

theorem drainAll_of_entry?_eq_some {entry : Entry} (h : it.entry? = some entry) :
    it.drainAll.1 = entry :: it.advance.drainAll.1 :=
  congrArg Prod.fst (drainAll_eq_of_entry?_eq_some h)

/-- Whoever reads some entries and then all that are left has read all, and is where the iterator ends. -/
theorem drainAll_drain (it : Iterator) (count : Nat) :
    ((it.drain count).1 ++ (it.drain count).2.drainAll.1, (it.drain count).2.drainAll.2) =
      it.drainAll := by
  induction count generalizing it with
  | zero => rfl
  | succ count ih =>
    cases hentry : it.entry? with
    | none => rw [drain_of_entry?_eq_none hentry, List.nil_append]
    | some entry =>
      rw [drain_of_entry?_eq_some hentry, drainAll_eq_of_entry?_eq_some hentry, ← ih it.advance]
      rfl

theorem drain_append_drainAll (it : Iterator) (count : Nat) :
    (it.drain count).1 ++ (it.drain count).2.drainAll.1 = it.drainAll.1 :=
  congrArg Prod.fst (drainAll_drain it count)

theorem entry?_eq_getElem?_drainAll (it : Iterator) : it.entry? = it.drainAll.1[0]? := by
  cases hentry : it.entry? with
  | none => rw [drainAll_of_entry?_eq_none hentry]; rfl
  | some entry => rw [drainAll_of_entry?_eq_some hentry]; rfl

/-- Behind some entries the iterator stands on the next one. -/
theorem entry?_drain (it : Iterator) (count : Nat) : entry? (it.drain count).2 = it.drainAll.1[count]? := by
  induction count generalizing it with
  | zero => exact it.entry?_eq_getElem?_drainAll
  | succ count ih =>
    cases hentry : it.entry? with
    | none => rw [drain_of_entry?_eq_none hentry, drainAll_of_entry?_eq_none hentry, hentry]; rfl
    | some entry =>
      rw [drain_of_entry?_eq_some hentry, drainAll_of_entry?_eq_some hentry, ih, List.getElem?_cons_succ]

/-- What is read of an iterator is the first part of its walk. -/
theorem fst_drain (it : Iterator) (count : Nat) : (it.drain count).1 = it.drainAll.1.take count := by
  induction count generalizing it with
  | zero => rw [drain, List.take_zero]
  | succ count ih =>
    cases hentry : it.entry? with
    | none => rw [drain_of_entry?_eq_none hentry, drainAll_of_entry?_eq_none hentry, List.take_nil]
    | some entry =>
      rw [drain_of_entry?_eq_some hentry, drainAll_of_entry?_eq_some hentry, ih, List.take_succ_cons]

/-- What is left to be read is the rest of the walk. -/
theorem drainAll_snd_drain (it : Iterator) (count : Nat) :
    (it.drain count).2.drainAll.1 = it.drainAll.1.drop count := by
  have hall := it.drain_append_drainAll count
  rw [fst_drain] at hall
  exact List.append_cancel_left (hall.trans (List.take_append_drop count _).symm)

/-- A walk that reads all entries ends where the iterator does. -/
theorem drain_eq_drainAll {count : Nat} (h : it.drainAll.1[count]? = none) : it.drain count = it.drainAll := by
  have hall := drainAll_drain it count
  rwa [drainAll_of_entry?_eq_none (by rw [entry?_drain, h]), List.append_nil] at hall

/-- A walk is as long as what it reads. -/
theorem drain_length (it : Iterator) (count : Nat) : it.drain (it.drain count).1.length = it.drain count := by
  induction count generalizing it with
  | zero => rfl
  | succ count ih =>
    cases hentry : it.entry? with
    | none =>
      rw [drain_of_entry?_eq_none hentry (count + 1)]
      rfl
    | some entry =>
      rw [drain_of_entry?_eq_some hentry, List.length_cons, drain_of_entry?_eq_some hentry, ih]

theorem drain_snapshot (bounds : Bounds) (rest : List Entry) (count : Nat) :
    (snapshot bounds rest).drain count = (rest.take count, snapshot bounds (rest.drop count)) := by
  induction count generalizing rest with
  | zero => rw [drain, List.take_zero, List.drop_zero]
  | succ count ih =>
    cases rest with
    | nil => rfl
    | cons entry rest =>
      rw [drain]
      show (entry :: ((snapshot bounds rest).drain count).1,
        ((snapshot bounds rest).drain count).2) = _
      rw [ih]
      rfl

theorem drainAll_snapshot (bounds : Bounds) (entries : List Entry) :
    (snapshot bounds entries).drainAll.1 = entries := by
  rw [drainAll, drain_snapshot]
  exact List.take_length

end OrderedStore.Iterator
