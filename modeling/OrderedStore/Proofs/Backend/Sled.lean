import OrderedStore.Engine.Disks
import OrderedStore.Proofs.Backend.Engine
import OrderedStore.Proofs.View.Contents

/-!
# Stores over sled

What is taken for granted of the package sled: a database keeps an ordered map at its path.  The engine
over a database then acts as a sorted map.  Its cursors ask the package only for ranges whose sides have
not crossed; all others are empty.

* `Sled.Lawful` is what is taken for granted.
* `SledEngine.between_sides` and `SledEngine.range_of_haveCrossed` say that the sides of a range, and the
  check before it, select the entries within the bounds.
* `SledEngine.actsAs` is what follows for the engine, `SledEngine.walks` for the store over it.
-/

namespace OrderedStore

/-! ### Laws -/

/-- The key of a side. -/
def Bound.key? : Bound → Option Bytes
  | unbounded => none
  | included key => some key
  | excluded key => some key

/-- The sides of a range have not crossed. -/
def Bound.Uncrossed (lower upper : Bound) : Prop :=
  ∀ low ∈ lower.key?, ∀ high ∈ upper.key?, low < high

/-- What the state of the package means. -/
structure Sled.Meaning (φ : Type) where
  /-- What is kept at a path. -/
  stored : φ → (path : String) → Contents
  /-- The database at a path can be opened. -/
  Ready : φ → (path : String) → Prop
  /-- The database has been opened at a path, can be used, and holds the contents. -/
  Holds : φ → (db : Nat) → (path : String) → Contents → Prop

/-- A database is an ordered map that is kept at its path.  To open it changes nothing that is kept, and
to flush it keeps what it holds; reading and writing it act on what it holds, and a range shows the
entries between its sides in increasing order.  How large it is on disk is not said. -/
structure Sled.Lawful {φ : Type} (sled : Sled φ) (meaning : Sled.Meaning φ) : Prop where
  openAt : ∀ {state path}, meaning.Ready state path →
    ∃ db after, (sled.openAt path).run.run state = (.ok db, after) ∧
      meaning.Holds after db path (meaning.stored state path) ∧
      meaning.stored after = meaning.stored state
  get : ∀ {state db path contents}, meaning.Holds state db path contents →
    ∀ key, (sled.get db key).run.run state = (.ok (contents.get? key), state)
  insert : ∀ {state db path contents}, meaning.Holds state db path contents →
    ∀ key value, ∃ after,
      (sled.insert db key value).run.run state = (.ok (contents.get? key), after) ∧
        meaning.Holds after db path (contents.insert ⟨key, value⟩)
  remove : ∀ {state db path contents}, meaning.Holds state db path contents →
    ∀ key, ∃ after, (sled.remove db key).run.run state = (.ok (contents.get? key), after) ∧
      meaning.Holds after db path (contents.erase key)
  range : ∀ {state db path contents}, meaning.Holds state db path contents →
    ∀ {lower upper : Bound}, lower.Uncrossed upper →
      (sled.range db lower upper).run state = ((contents.between lower upper).map .ok, state)
  applyBatch : ∀ {state db path contents}, meaning.Holds state db path contents →
    ∀ ops, ∃ after, (sled.applyBatch db ops).run.run state = (.ok (), after) ∧
      meaning.Holds after db path (ops.foldl Contents.applyTo contents)
  /-- What is already kept is not changed. -/
  flush : ∀ {state db path contents}, meaning.Holds state db path contents →
    ∃ written after, (sled.flush db).run.run state = (.ok written, after) ∧
      meaning.Holds after db path contents ∧ meaning.stored after path = contents ∧
      (meaning.stored state path = contents → meaning.stored after = meaning.stored state)
  len : ∀ {state db path contents}, meaning.Holds state db path contents →
    sled.len db state = contents.size

namespace SledEngine

variable {φ : Type}

/-! ### Ranges -/

/-- The sides of bounds that have not crossed have not crossed. -/
theorem uncrossed_sides {bounds : Bounds} (h : haveCrossed bounds = false) :
    (lowerSide bounds).Uncrossed (upperSide bounds) := by
  obtain ⟨_ | lower, _ | upper⟩ := bounds
  · rintro _ ⟨⟩
  · rintro _ ⟨⟩
  · rintro _ _ _ ⟨⟩
  · rintro _ ⟨⟩ _ ⟨⟩
    exact List.not_le.1 (of_decide_eq_false h)

/-- The sides of the bounds have the keys between them that are within the bounds. -/
theorem between_sides (contents : Contents) (bounds : Bounds) :
    contents.between (lowerSide bounds) (upperSide bounds) = contents.range .ascending bounds := by
  refine List.filter_congr fun entry _ => ?_
  obtain ⟨_ | lower, _ | upper⟩ := bounds <;> rfl

/-- There are no keys within bounds that have crossed. -/
theorem range_of_haveCrossed {bounds : Bounds} (h : haveCrossed bounds = true) (contents : Contents)
    (direction : Direction) : contents.range direction bounds = [] := by
  refine List.eq_nil_iff_forall_not_mem.2 fun entry hentry => ?_
  obtain ⟨hlower, hupper⟩ := Bounds.contains_iff.1 (Contents.mem_range_iff.1 hentry).2
  obtain ⟨_ | lower, _ | upper⟩ := bounds
  · cases h
  · cases h
  · cases h
  · have hcrossed : upper ≤ lower := of_decide_eq_true h
    have hbetween : lower < upper := Std.lt_of_le_of_lt (hlower lower rfl) (hupper upper rfl)
    exact hcrossed hbetween

/-! ### Calls of the package -/

theorem run_ofSled_of_ok {α : Type} {call : SledM φ α} {state after : φ} {answer : α}
    (h : call.run.run state = (.ok answer, after)) :
    (StoreM.ofSled call).run.run state = (.ok answer, after) := by
  show (Except.mapError StoreError.backend <$> call.run).run state = _
  rw [StateT.run_map, h]
  rfl

section Lawful

variable {sled : Sled φ} {meaning : Sled.Meaning φ} (h : sled.Lawful meaning) {db : Nat} {path : String}
  {state : φ} {contents : Contents}

include h

/-- A cursor has the entries of its range, in its direction, and changes nothing. -/
theorem run_cursor (hs : meaning.Holds state db path contents) (direction : Direction) (bounds : Bounds) :
    (cursor sled db direction bounds).run.run state =
      (.ok ((contents.range direction bounds).map .ok), state) := by
  rw [cursor]
  by_cases hcrossed : haveCrossed bounds = true
  · rw [if_pos hcrossed, range_of_haveCrossed hcrossed]
    rfl
  · rw [if_neg hcrossed, StoreM.run_bind_ofState,
      h.range hs (uncrossed_sides (Bool.eq_false_iff.2 hcrossed)), between_sides, List.map_map]
    cases direction with
    | ascending => rfl
    | descending =>
      show (Except.ok _, state) = _
      rw [← List.map_reverse]
      rfl

theorem run_flush (hs : meaning.Holds state db path contents) :
    ∃ written after, (StoreM.ofSled (sled.flush db)).run.run state = (.ok written, after) ∧
      meaning.Holds after db path contents := by
  obtain ⟨written, after, hrun, hafter, -⟩ := h.flush hs
  exact ⟨written, after, run_ofSled_of_ok hrun, hafter⟩

/-- To wait for writes keeps what the database holds. -/
theorem run_flushIf (hs : meaning.Holds state db path contents) (sync : Bool) :
    ∃ after, (flushIf sled db sync).run.run state = (.ok (), after) ∧
      meaning.Holds after db path contents := by
  cases sync with
  | false => exact ⟨state, rfl, hs⟩
  | true =>
    obtain ⟨written, after, hrun, hafter⟩ := run_flush h hs
    exact ⟨after, StoreM.run_bind_of_ok hrun, hafter⟩

theorem run_write (hs : meaning.Holds state db path contents) (op : Operation) :
    ∃ after, (write sled db op).run.run state = (.ok (), after) ∧
      meaning.Holds after db path (contents.applyTo op) := by
  cases op with
  | set key value =>
    obtain ⟨after, hrun, hafter⟩ := h.insert hs key value
    exact ⟨after, StoreM.run_bind_of_ok (run_ofSled_of_ok hrun), hafter⟩
  | delete key =>
    obtain ⟨after, hrun, hafter⟩ := h.remove hs key
    exact ⟨after, StoreM.run_bind_of_ok (run_ofSled_of_ok hrun), hafter⟩

/-- **The engine over a database acts as a sorted map.** -/
theorem actsAs (db : Nat) (path : String) :
    (engine sled db).ActsAs fun state contents => meaning.Holds state db path contents where
  get key := fun state contents hs => ⟨state, run_ofSled_of_ok (h.get hs key), hs⟩
  write sync op := by
    intro state contents hs
    obtain ⟨between, hwrite, hbetween⟩ := run_write h hs op
    obtain ⟨after, hflush, hafter⟩ := run_flushIf h hbetween sync
    exact ⟨after, (StoreM.run_bind_of_ok hwrite).trans hflush, hafter⟩
  cursor direction bounds := fun state _ hs => ⟨state, run_cursor h hs direction bounds, hs⟩
  applyAll _ sync ops := by
    intro state contents hs
    obtain ⟨between, hbatch, hbetween⟩ := h.applyBatch hs ops
    obtain ⟨after, hflush, hafter⟩ := run_flushIf h hbetween sync
    exact ⟨after, (StoreM.run_bind_of_ok (run_ofSled_of_ok hbatch)).trans hflush, hafter⟩

/-- The store over a database walks what the database holds. -/
theorem walks (hs : meaning.Holds state db path contents) :
    (engine sled db).store.Walks state contents := by
  intro direction bounds hbounds
  refine ⟨.ofItems bounds ((contents.range direction bounds).map .ok), ?_,
    Iterator.alike_ofItems fun _ he => (Contents.mem_range_iff.1 he).2⟩
  show (StoreM.ofExcept (requireBounds bounds) >>= _).run.run state = _
  rw [requireBounds_of_hasEmpty_eq_false hbounds]
  exact StoreM.run_bind_of_ok (run_cursor h hs direction bounds)

/-- The number of entries is among the statistics, and so is the kind of the store. -/
theorem stats_eq (hs : meaning.Holds state db path contents) :
    ∃ size, stats sled db state =
      [("database.type", "sled"), ("database.size", toString contents.size)] ++ size := by
  rw [stats, h.len hs]
  exact ⟨_, rfl⟩

end Lawful

end SledEngine

end OrderedStore
