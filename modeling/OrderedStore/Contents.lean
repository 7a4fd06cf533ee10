import OrderedStore.Entry

/-!
# Sorted contents

The contents of a store as a list of entries with strictly increasing keys.  It is the plainest
ordered map: reading finds the key, writing puts the entry between the smaller and the greater
keys, and a range is cut out by its bounds.
-/

namespace OrderedStore

/-- Entries with strictly increasing keys. -/
structure Contents where
  entries : List Entry
  sorted : entries.Pairwise fun a b => a.key < b.key

namespace Contents

/-- Contents without entries. -/
def empty : Contents := ⟨[], .nil⟩

instance : Inhabited Contents := ⟨empty⟩

/-- The value stored for a key. -/
def get? (contents : Contents) (key : Bytes) : Option Bytes :=
  (contents.entries.find? fun entry => entry.key == key).map Entry.value

/-- The number of entries. -/
def size (contents : Contents) : Nat := contents.entries.length

theorem pairwise_insert {entries : List Entry} (entry : Entry)
    (h : entries.Pairwise fun a b => a.key < b.key) :
    (entries.filter (fun e => decide (e.key < entry.key)) ++
      entry :: entries.filter fun e => decide (entry.key < e.key)).Pairwise
        fun a b => a.key < b.key := by
  refine List.pairwise_append.2 ⟨h.filter _, List.pairwise_cons.2 ⟨?_, h.filter _⟩, ?_⟩
  · intro e he
    simpa using (List.mem_filter.1 he).2
  · intro a ha b hb
    have hlow : a.key < entry.key := by simpa using (List.mem_filter.1 ha).2
    rcases List.mem_cons.1 hb with rfl | hb
    · exact hlow
    · have hhigh : entry.key < b.key := by simpa using (List.mem_filter.1 hb).2
      exact List.lt_trans hlow hhigh

/-- Stores an entry, in place of the one with the same key if there is one. -/
def insert (contents : Contents) (entry : Entry) : Contents :=
  ⟨_, pairwise_insert entry contents.sorted⟩

/-- Removes the entry of a key, if there is one. -/
def erase (contents : Contents) (key : Bytes) : Contents :=
  ⟨contents.entries.filter fun entry => entry.key != key, contents.sorted.filter _⟩

/-- The entries within the bounds, in the given direction. -/
def range (contents : Contents) (direction : Direction) (bounds : Bounds) : List Entry :=
  let inside := contents.entries.filter fun entry => bounds.contains entry.key
  match direction with
  | .ascending => inside
  | .descending => inside.reverse

/-- The contents that result from storing the entries one after the other. -/
def ofList (entries : List Entry) : Contents :=
  entries.foldl insert empty

theorem ext {a b : Contents} (h : a.entries = b.entries) : a = b := by
  cases a
  cases b
  cases h
  rfl

theorem entries_insert (contents : Contents) (entry : Entry) :
    (contents.insert entry).entries =
      contents.entries.filter (fun e => decide (e.key < entry.key)) ++
        entry :: contents.entries.filter fun e => decide (entry.key < e.key) := rfl

theorem entries_erase (contents : Contents) (key : Bytes) :
    (contents.erase key).entries = contents.entries.filter fun entry => entry.key != key := rfl

/-! ### Contents as a finite map -/

/-- A key has one value: that of the entry which is stored for it. -/
theorem mem_entries_iff {contents : Contents} {entry : Entry} :
    entry ∈ contents.entries ↔ contents.get? entry.key = some entry.value := by
  constructor
  · intro h
    obtain ⟨first, rest, hsplit⟩ := List.append_of_mem h
    have hsorted := contents.sorted
    rw [hsplit, List.pairwise_append] at hsorted
    have hfirst : first.find? (fun e => e.key == entry.key) = none :=
      List.find?_eq_none.2 fun e he => by
        simpa using Std.ne_of_lt (hsorted.2.2 e he entry List.mem_cons_self)
    rw [get?, hsplit, List.find?_append, hfirst]
    simp
  · intro h
    obtain ⟨found, hfound, hvalue⟩ := Option.map_eq_some_iff.1 h
    have hkey : found.key = entry.key := by simpa using List.find?_some hfound
    have heq : found = entry := by
      cases found
      cases entry
      cases hkey
      cases hvalue
      rfl
    exact heq ▸ List.mem_of_find?_eq_some hfound

theorem get?_eq_some_iff {contents : Contents} {key value : Bytes} :
    contents.get? key = some value ↔ (⟨key, value⟩ : Entry) ∈ contents.entries :=
  (@mem_entries_iff contents ⟨key, value⟩).symm

theorem get?_insert (contents : Contents) (entry : Entry) (key : Bytes) :
    (contents.insert entry).get? key =
      if key = entry.key then some entry.value else contents.get? key := by
  refine Option.ext fun value => ?_
  rw [get?_eq_some_iff, entries_insert]
  by_cases hkey : key = entry.key
  · rw [if_pos hkey]
    grind [Entry]
  · rw [if_neg hkey, get?_eq_some_iff]
    grind

theorem get?_erase (contents : Contents) (erased key : Bytes) :
    (contents.erase erased).get? key = if key = erased then none else contents.get? key := by
  refine Option.ext fun value => ?_
  rw [get?_eq_some_iff, entries_erase, List.mem_filter]
  by_cases hkey : key = erased
  · simp [hkey]
  · simp [hkey, get?_eq_some_iff]

/-! ### Ranges -/

theorem mem_range_iff {contents : Contents} {direction : Direction} {bounds : Bounds}
    {entry : Entry} :
    entry ∈ contents.range direction bounds ↔
      contents.get? entry.key = some entry.value ∧ bounds.contains entry.key = true := by
  rw [← mem_entries_iff]
  cases direction with
  | ascending => exact List.mem_filter
  | descending => exact List.mem_reverse.trans List.mem_filter

theorem pairwise_range (contents : Contents) (direction : Direction) (bounds : Bounds) :
    (contents.range direction bounds).Pairwise fun a b => direction.Precedes a.key b.key := by
  cases direction with
  | ascending => exact contents.sorted.filter _
  | descending => exact List.pairwise_reverse.2 (contents.sorted.filter _)

end Contents

end OrderedStore
