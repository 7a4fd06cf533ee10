import Mathlib.Data.List.Lex
import Mathlib.Order.Bounds.Basic
import OrderedStore.Entry

/-!
# Keys that begin with a stem

The byte strings that begin with a stem form a range: they begin at the stem and end below the first
string that is greater than all of them.  Under a stem, a range of keys becomes the range of the same
keys with the stem before them.

* `Bytes.isPrefix_iff` describes the strings that begin with a stem by their order.
* `Bytes.mem_above_iff` finds the strings that are greater than all of them, and
  `Bytes.stemEnd?_isLeast_above` says that the end of a stem is the least of these.
* `Bytes.stemEnd?_append` and `Bounds.under_under` compose stems.
* `Bounds.contains_under_iff` says which keys a range under a stem contains.
-/

namespace OrderedStore

/-! ### The order of byte strings -/

namespace Bytes

theorem append_lt_append_iff (stem : Bytes) {a b : Bytes} : stem ++ a < stem ++ b ↔ a < b := by
  induction stem with
  | nil => exact Iff.rfl
  | cons byte rest ih =>
    rw [List.cons_append, List.cons_append, List.cons_lt_cons_iff, ih]
    simp [UInt8.lt_irrefl]

theorem append_le_append_iff (stem : Bytes) {a b : Bytes} : stem ++ a ≤ stem ++ b ↔ a ≤ b := by
  rw [← List.not_lt, ← List.not_lt, append_lt_append_iff]

/-- A byte that is not the last one is followed by the next byte. -/
theorem lt_add_one_iff {a b : UInt8} (h : b < 0xFF) : a < b + 1 ↔ a ≤ b := by
  rw [UInt8.lt_iff_toNat_lt, UInt8.le_iff_toNat_le, UInt8.toNat_add, UInt8.toNat_one,
    Nat.mod_eq_of_lt (by rw [UInt8.lt_iff_toNat_lt] at h; simp at h; omega)]
  omega

/-- Exactly the strings that begin with the stem are not below it and below its end. -/
theorem isPrefix_iff {stem key : Bytes} :
    stem <+: key ↔ stem ≤ key ∧ ∀ limit ∈ stemEnd? stem, key < limit := by
  induction stem generalizing key with
  | nil => simp
  | cons byte rest ih =>
    cases key with
    | nil => simp
    | cons first key =>
      rw [List.cons_prefix_cons, ih, List.cons_le_cons_iff]
      cases hrest : stemEnd? rest with
      | some limit =>
        rw [stemEnd?_cons_of_some hrest]
        simp only [Option.mem_def, Option.some.injEq, forall_eq', List.cons_lt_cons_iff]
        grind
      | none =>
        rw [stemEnd?_cons_of_none hrest]
        by_cases hbyte : byte < 0xFF
        · simp only [if_pos hbyte, Option.mem_def, Option.some.injEq, forall_eq',
            List.cons_lt_cons_iff, List.not_lt_nil, and_false, or_false, lt_add_one_iff hbyte]
          grind
        · simp only [if_neg hbyte]
          grind

/-- Whatever is put before a stem is put before its end; a stem without an end leaves that of what is
before it. -/
theorem stemEnd?_append (front stem : Bytes) :
    stemEnd? (front ++ stem) = ((stemEnd? stem).map (front ++ ·)).or (stemEnd? front) := by
  induction front with
  | nil => cases h : stemEnd? stem <;> simp [h]
  | cons byte front ih =>
    rw [List.cons_append]
    cases hstem : stemEnd? stem with
    | some limit =>
      rw [hstem] at ih
      exact stemEnd?_cons_of_some ih
    | none =>
      rw [hstem] at ih
      rw [stemEnd?, ih]
      rfl

/-- Below a string with the stem, and not below the stem, all strings have it. -/
theorem isPrefix_of_lt_append {stem key rest : Bytes} (hle : stem ≤ key) (hlt : key < stem ++ rest) :
    stem <+: key := by
  refine isPrefix_iff.2 ⟨hle, fun limit hlimit => ?_⟩
  exact List.lt_trans hlt ((isPrefix_iff.1 (List.prefix_append stem rest)).2 limit hlimit)

/-! ### The strings above a stem -/

/-- The strings that are greater than every string that begins with the stem. -/
def above (stem : Bytes) : Set Bytes := {limit | ∀ key, stem <+: key → key < limit}

/-- The strings above a stem are those that are not below its end. -/
theorem mem_above_iff {stem limit : Bytes} :
    limit ∈ above stem ↔ ∃ least ∈ stemEnd? stem, least ≤ limit := by
  constructor
  · intro h
    have hstem : stem < limit := h stem (List.prefix_refl stem)
    -- The string does not begin with the stem, or it would be greater than itself.
    have hout : ¬ stem <+: limit := fun hin => List.lt_irrefl limit (h limit hin)
    rw [isPrefix_iff, not_and] at hout
    simpa using hout (List.le_of_lt hstem)
  · rintro ⟨least, hleast, hle⟩ key hkey
    exact Std.lt_of_lt_of_le ((isPrefix_iff.1 hkey).2 least hleast) hle

/-- A stem has no end just if no byte of it can be raised. -/
theorem stemEnd?_eq_none_iff {stem : Bytes} :
    stemEnd? stem = none ↔ ∀ byte ∈ stem, byte = 0xFF := by
  induction stem with
  | nil => simp
  | cons byte rest ih =>
    rw [List.forall_mem_cons, ← ih]
    cases hrest : stemEnd? rest with
    | some limit => simp [stemEnd?_cons_of_some hrest]
    | none =>
      have hgreatest : byte = 0xFF ↔ ¬ byte < 0xFF := by grind
      rw [stemEnd?_cons_of_none hrest, hgreatest]
      simp

/-- **The end of a stem is the supremum of the strings that begin with it.**  A string begins with the
stem just if it is not below it and below its end, if there is one.  The end is the least string that is
greater than all that begin with the stem.  There is none for a stem of greatest bytes only, the empty one
among them, and then no string is greater than all that begin with it. -/
theorem stemEnd?_isLeast_above (stem : Bytes) :
    (∀ key, stem <+: key ↔ stem ≤ key ∧ ∀ limit ∈ stemEnd? stem, key < limit) ∧
      (∀ limit ∈ stemEnd? stem, IsLeast (above stem) limit) ∧
      (stemEnd? stem = none ↔ above stem = ∅) ∧
      (stemEnd? stem = none ↔ ∀ byte ∈ stem, byte = 0xFF) := by
  refine ⟨fun _ => isPrefix_iff, fun limit hlimit => ⟨?_, fun other hother => ?_⟩, ?_,
    stemEnd?_eq_none_iff⟩
  · exact mem_above_iff.2 ⟨limit, hlimit, List.le_refl limit⟩
  · obtain ⟨least, hleast, hle⟩ := mem_above_iff.1 hother
    cases hlimit.symm.trans hleast
    exact hle
  · simp only [Set.eq_empty_iff_forall_notMem, mem_above_iff]
    constructor
    · rintro hnone other ⟨least, hleast, -⟩
      cases hnone.symm.trans hleast
    · exact fun hempty => Option.eq_none_iff_forall_not_mem.2 fun least hleast =>
        hempty least ⟨least, hleast, List.le_refl least⟩

/-- The greatest bytes at the end are dropped, and the byte before them is raised. -/
theorem stemEnd?_isLeast_above_carry :
    stemEnd? [0x61, 0x62, 0xFF, 0xFF] = some [0x61, 0x63] ∧
      IsLeast (above [0x61, 0x62, 0xFF, 0xFF]) [0x61, 0x63] :=
  ⟨by decide, (stemEnd?_isLeast_above [0x61, 0x62, 0xFF, 0xFF]).2.1 [0x61, 0x63] (by decide)⟩

end Bytes

/-! ### Ranges under a stem -/

namespace Bounds

variable {bounds : Bounds}

theorem lower_under_le_iff {stem k : Bytes} :
    (∀ lower ∈ (bounds.under stem).lower, lower ≤ stem ++ k) ↔ ∀ lower ∈ bounds.lower, lower ≤ k := by
  rw [under, ofStem]
  cases bounds.lower with
  | some lower => simp [Bytes.append_le_append_iff]
  | none =>
    cases stem with
    | nil => simp
    | cons byte stem =>
      have hle : byte :: stem ≤ byte :: stem ++ k := List.le_append_left
      simpa using hle

theorem lt_upper_under_iff {stem k : Bytes} :
    (∀ upper ∈ (bounds.under stem).upper, stem ++ k < upper) ↔ ∀ upper ∈ bounds.upper, k < upper := by
  rw [under, ofStem]
  cases bounds.upper with
  | some upper => simp [Bytes.append_lt_append_iff]
  | none => simpa using (Bytes.isPrefix_iff.1 (List.prefix_append stem k)).2

/-- A range under a stem contains only keys that begin with the stem. -/
theorem isPrefix_of_contains_under {stem key : Bytes} (h : (bounds.under stem).contains key = true) :
    stem <+: key := by
  obtain ⟨hlower, hupper⟩ := contains_iff.1 h
  have hle : stem ≤ key := by
    rw [under, ofStem] at hlower
    cases hbound : bounds.lower with
    | some lower =>
      rw [hbound] at hlower
      exact List.le_trans List.le_append_left (hlower (stem ++ lower) rfl)
    | none =>
      rw [hbound] at hlower
      cases stem with
      | nil => exact List.nil_le _
      | cons byte stem => exact hlower _ rfl
  rw [under, ofStem] at hupper
  cases hbound : bounds.upper with
  | some upper =>
    rw [hbound] at hupper
    exact Bytes.isPrefix_of_lt_append hle (hupper (stem ++ upper) rfl)
  | none =>
    rw [hbound] at hupper
    exact Bytes.isPrefix_iff.2 ⟨hle, hupper⟩

theorem contains_under_append (bounds : Bounds) (stem k : Bytes) :
    (bounds.under stem).contains (stem ++ k) = bounds.contains k := by
  rw [Bool.eq_iff_iff, contains_iff, contains_iff, lower_under_le_iff, lt_upper_under_iff]

/-- A range under a stem contains the keys of the range, with the stem before them. -/
theorem contains_under_iff {stem key : Bytes} :
    (bounds.under stem).contains key = true ↔ ∃ k, key = stem ++ k ∧ bounds.contains k = true := by
  constructor
  · intro h
    obtain ⟨k, rfl⟩ := isPrefix_of_contains_under h
    exact ⟨k, rfl, contains_under_append bounds stem k ▸ h⟩
  · rintro ⟨k, rfl, h⟩
    rw [contains_under_append, h]

/-- The range of a stem contains the keys that begin with it. -/
theorem contains_ofStem_iff {stem key : Bytes} : (ofStem stem).contains key = true ↔ stem <+: key := by
  rw [← under_all, contains_under_iff]
  constructor
  · rintro ⟨k, rfl, -⟩
    exact List.prefix_append stem k
  · rintro ⟨k, rfl⟩
    exact ⟨k, rfl, contains_all k⟩

/-- Stems are put before a range one after the other, or at once. -/
theorem under_under (bounds : Bounds) (outer inner : Bytes) :
    (bounds.under inner).under outer = bounds.under (outer ++ inner) := by
  obtain ⟨lower, upper⟩ := bounds
  simp only [under, ofStem, Bytes.stemEnd?_append, mk.injEq]
  refine ⟨?_, ?_⟩
  · cases lower with
    | some lower => simp
    | none => cases inner <;> simp
  · cases upper with
    | some upper => simp
    | none => cases Bytes.stemEnd? inner <;> simp

/-- The empty stem leaves a range as it is. -/
theorem under_nil (bounds : Bounds) : bounds.under [] = bounds := by
  obtain ⟨lower, upper⟩ := bounds
  cases lower <;> cases upper <;> rfl

theorem hasEmpty_eq_false_iff :
    bounds.hasEmpty = false ↔ bounds.lower ≠ some [] ∧ bounds.upper ≠ some [] := by
  simp [hasEmpty]

/-- The empty key is in a range only if its lower side is open. -/
theorem lower_eq_none_of_contains_nil (hbounds : bounds.hasEmpty = false)
    (h : bounds.contains [] = true) : bounds.lower = none := by
  refine Option.eq_none_iff_forall_not_mem.2 fun lower hlower => ?_
  have hnil : lower = [] := List.le_nil.1 ((contains_iff.1 h).1 lower hlower)
  exact (hasEmpty_eq_false_iff.1 hbounds).1 (hnil ▸ hlower)

theorem contains_nil_iff (hbounds : bounds.hasEmpty = false) :
    bounds.contains [] = true ↔ bounds.lower = none := by
  refine ⟨lower_eq_none_of_contains_nil hbounds, fun hlower => contains_iff.2 ⟨?_, ?_⟩⟩
  · simp [hlower]
  · intro upper hupper
    have hne : upper ≠ [] := fun hnil => (hasEmpty_eq_false_iff.1 hbounds).2 (hnil ▸ hupper)
    exact List.not_le.1 (mt List.le_nil.1 hne)

/-- Under a stem no bound is empty that was not so before. -/
theorem hasEmpty_under (h : bounds.hasEmpty = false) (stem : Bytes) :
    (bounds.under stem).hasEmpty = false := by
  obtain ⟨hlower, hupper⟩ := hasEmpty_eq_false_iff.1 h
  refine hasEmpty_eq_false_iff.2 ⟨fun hnil => ?_, fun hnil => ?_⟩
  · rw [under, ofStem] at hnil
    cases hbound : bounds.lower with
    | some lower =>
      rw [hbound] at hnil
      exact hlower (by simp_all)
    | none =>
      rw [hbound] at hnil
      cases stem <;> simp at hnil
  · rw [under, ofStem] at hnil
    cases hbound : bounds.upper with
    | some upper =>
      rw [hbound] at hnil
      exact hupper (by simp_all)
    | none =>
      -- The end of a stem is above the stem.
      rw [hbound] at hnil
      exact List.not_lt_nil stem ((Bytes.isPrefix_iff.1 (List.prefix_refl stem)).2 [] hnil)

end Bounds

end OrderedStore
