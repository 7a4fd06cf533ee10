import OrderedStore.Bytes

/-!
# Entries, bounds and directions

An entry is a key with its value.  A range of keys is given by optional bounds, the lower one
included and the upper one excluded, and is walked in one of two directions.  Under a stem, the
keys of a range are those that begin with the stem, with the stem put before both bounds.
-/

namespace OrderedStore

/-- A key with its value. -/
structure Entry where
  key : Bytes
  value : Bytes
  deriving DecidableEq, Inhabited

/-- The entry without the stem of its key; `none` if the key does not begin with the stem. -/
def Entry.strip? (stem : Bytes) (entry : Entry) : Option Entry :=
  if stem.isPrefixOf entry.key then some ⟨entry.key.drop stem.length, entry.value⟩ else none

/-- The entry with `stem` before its key. -/
def Entry.under (stem : Bytes) (entry : Entry) : Entry :=
  ⟨stem ++ entry.key, entry.value⟩

/-- The two orders in which keys are walked. -/
inductive Direction where
  | ascending
  | descending
  deriving DecidableEq

/-- A key comes before another one when keys are walked in this direction. -/
def Direction.Precedes : Direction → Bytes → Bytes → Prop
  | ascending, a, b => a < b
  | descending, a, b => b < a

/-- The half-open range of keys from `lower` to `upper`; an absent bound leaves its side open. -/
structure Bounds where
  lower : Option Bytes
  upper : Option Bytes
  deriving DecidableEq

namespace Bounds

/-- The range of all keys. -/
def all : Bounds := ⟨none, none⟩

/-- A key is not below the lower bound. -/
def lowerAdmits (bounds : Bounds) (key : Bytes) : Bool :=
  bounds.lower.all fun lower => decide (lower ≤ key)

/-- A key is below the upper bound. -/
def upperAdmits (bounds : Bounds) (key : Bytes) : Bool :=
  bounds.upper.all fun upper => decide (key < upper)

/-- A key is in the range if it is not below the lower bound and is below the upper one. -/
def contains (bounds : Bounds) (key : Bytes) : Bool :=
  bounds.lowerAdmits key && bounds.upperAdmits key

/-- Whether a bound is present but empty. -/
def hasEmpty (bounds : Bounds) : Bool :=
  bounds.lower == some [] || bounds.upper == some []

/-- The keys that begin with `stem`; the empty stem leaves both sides open. -/
def ofStem (stem : Bytes) : Bounds :=
  ⟨if stem.isEmpty then none else some stem, Bytes.stemEnd? stem⟩

/-- The range under a stem: a present bound is put behind the stem, an absent one becomes the end
of the stem's own range. -/
def under (stem : Bytes) (bounds : Bounds) : Bounds :=
  ⟨(bounds.lower.map (stem ++ ·)).or (ofStem stem).lower,
    (bounds.upper.map (stem ++ ·)).or (ofStem stem).upper⟩

theorem contains_iff {bounds : Bounds} {key : Bytes} :
    bounds.contains key = true ↔
      (∀ lower ∈ bounds.lower, lower ≤ key) ∧ ∀ upper ∈ bounds.upper, key < upper := by
  simp [contains, lowerAdmits, upperAdmits, Option.all_eq_true]

@[simp] theorem contains_all (key : Bytes) : all.contains key = true := rfl

theorem under_all (stem : Bytes) : all.under stem = ofStem stem := by
  simp [under, all]

end Bounds

end OrderedStore
