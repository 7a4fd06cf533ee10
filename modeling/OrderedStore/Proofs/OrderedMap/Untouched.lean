import OrderedStore.Proofs.OrderedMap.WellFormed

/-!
# Changes that leave the tree as it is

An insertion of a present key changes one value and nothing else: the tree keeps its shape, its keys and its
heights.  A removal of an absent key changes nothing at all, whether the key is searched before or not.

* `Tree.mapEntries` changes the entries of a tree where they are, `Tree.outline` leaves the values out.
* `Tree.Ordered.insert_of_eq_some` is the insertion of a present key.
* `OrderedMap.untouched_of_reachable` says both of reachable maps.
-/

namespace OrderedStore

/-- The entry, or `new` in place of one with the same key. -/
def Entry.overwrite (new entry : Entry) : Entry := if entry.key = new.key then new else entry

namespace Tree

/-! ### Entries changed in their places -/

/-- The tree with every entry changed; the nodes stay where they are and keep their heights. -/
def mapEntries (change : Entry → Entry) : Tree → Tree
  | leaf => leaf
  | node entry height left right =>
    node (change entry) height (left.mapEntries change) (right.mapEntries change)

/-- The shape of the tree with its keys and heights, but without values. -/
def outline (tree : Tree) : Tree := tree.mapEntries fun entry => ⟨entry.key, []⟩

theorem mapEntries_node (change : Entry → Entry) (entry : Entry) (h : Nat) (left right : Tree) :
    (node entry h left right).mapEntries change =
      node (change entry) h (left.mapEntries change) (right.mapEntries change) := rfl

theorem mapEntries_mapEntries (change again : Entry → Entry) (tree : Tree) :
    (tree.mapEntries change).mapEntries again = tree.mapEntries (again ∘ change) := by
  induction tree with
  | leaf => rfl
  | node entry h left right ihl ihr =>
    rw [mapEntries_node, mapEntries_node, mapEntries_node, ihl, ihr, Function.comp_apply]

theorem mapEntries_eq_self {change : Entry → Entry} {tree : Tree}
    (h : ∀ entry ∈ tree.toList, change entry = entry) : tree.mapEntries change = tree := by
  induction tree with
  | leaf => rfl
  | node entry height left right ihl ihr =>
    obtain ⟨hleft, hentry, hright⟩ : (∀ e ∈ left.toList, change e = e) ∧ change entry = entry ∧
        ∀ e ∈ right.toList, change e = e := by
      simpa only [toList_node, List.forall_mem_append, List.forall_mem_cons] using h
    rw [mapEntries_node, hentry, ihl hleft, ihr hright]

/-- No node of the tree has the key of the new entry. -/
theorem mapEntries_overwrite_of_ne {new : Entry} {tree : Tree}
    (h : ∀ entry ∈ tree.toList, entry.key ≠ new.key) : tree.mapEntries new.overwrite = tree :=
  mapEntries_eq_self fun entry hentry => if_neg (h entry hentry)

/-- Overwriting changes values only. -/
theorem outline_overwrite (new : Entry) (tree : Tree) :
    (tree.mapEntries new.overwrite).outline = tree.outline := by
  have hkey (entry : Entry) : (new.overwrite entry).key = entry.key := by
    rw [Entry.overwrite]
    split
    · next h => exact h.symm
    · rfl
  rw [outline, mapEntries_mapEntries, outline]
  refine congrArg tree.mapEntries (funext fun entry => ?_)
  rw [Function.comp_apply, hkey]

/-! ### Insertion of a present key -/

/-- An insertion that replaces a value overwrites the one node with the key. -/
theorem Ordered.insert_of_eq_some {tree : Tree} (ho : tree.Ordered) {new : Entry} {value : Bytes}
    (h : tree.get? new.key = some value) : (tree.insert new).1 = tree.mapEntries new.overwrite := by
  induction tree with
  | leaf => cases h
  | node entry height left right ihl ihr =>
    obtain ⟨hbelow, habove, hleft, hright⟩ := ho
    rw [get?_node] at h
    rw [insert_node, mapEntries_node]
    split at h
    · next hlt =>
      have hentry : new.overwrite entry = entry := if_neg (Std.ne_of_lt hlt).symm
      rw [if_pos hlt, insert_snd, h, ihl hleft h, hentry,
        mapEntries_overwrite_of_ne (forall_ne_of_le (List.le_of_lt hlt) habove)]
      rfl
    · next hlt =>
      rw [if_neg hlt, mapEntries_overwrite_of_ne (forall_ne_of_ge hlt hbelow)]
      split at h
      · next hgt =>
        have hentry : new.overwrite entry = entry := if_neg (Std.ne_of_lt hgt)
        rw [if_pos hgt, insert_snd, h, ihr hright h, hentry]
        rfl
      · next hgt =>
        have heq : entry.key = new.key := List.le_antisymm hlt hgt
        have hentry : new.overwrite entry = new := if_pos heq
        rw [if_neg hgt, hentry, heq, mapEntries_overwrite_of_ne (forall_ne_of_le hgt habove)]

end Tree

namespace OrderedMap

/-- **What changes no key set leaves the tree as it is.**  Inserting a key that is present keeps the shape of the
tree with all keys and heights, and the size; only the value of that key becomes the new one.  A removal in the
tree finds exactly the keys that the search finds; for any other key it leaves the tree as it is, and so does
the removal from the map, which does not even begin it. -/
theorem untouched_of_reachable {map : OrderedMap} (h : map.Reachable) :
    (∀ entry : Entry, map.contains entry.key = true →
        (map.insert entry).1.root.outline = map.root.outline ∧
          (map.insert entry).1 = { map with root := map.root.mapEntries entry.overwrite }) ∧
      ∀ key : Bytes, (map.root.remove key).2.isSome = map.contains key ∧
        (map.contains key = false →
          map.remove key = (map, none) ∧ (map.root.remove key).1 = map.root) := by
  refine ⟨fun entry hcontains => ?_, fun key => ?_⟩
  · obtain ⟨value, hvalue⟩ := Option.isSome_iff_exists.1 hcontains
    have hroot : (map.insert entry).1.root = map.root.mapEntries entry.overwrite :=
      h.wellFormed.ordered.insert_of_eq_some hvalue
    have hsize : (map.insert entry).1.size = map.size := by
      have hadded := map.size_insert entry
      rw [hvalue] at hadded
      exact Nat.succ.inj hadded
    refine ⟨?_, ?_⟩
    · rw [hroot, Tree.outline_overwrite]
    · rw [← hroot, ← hsize]
  · have hremoved : (map.root.remove key).2 = map.get? key := Tree.remove_snd key map.root
    refine ⟨by rw [hremoved]; rfl, fun hcontains => ?_⟩
    have hnone : map.get? key = none := by simpa [contains] using hcontains
    exact ⟨remove_of_eq_none hnone, Tree.remove_of_eq_none (hremoved.trans hnone)⟩

/-- A present key below the root is given a new value, and an absent one between two others is removed. -/
theorem untouched_of_reachable_rotated :
    let map := (((empty.insert ⟨[1], [7]⟩).1.insert ⟨[2], []⟩).1.insert ⟨[3], [8]⟩).1
    map.Reachable ∧ map.contains [3] = true ∧
      (map.insert ⟨[3], [9]⟩).1.root.outline = map.root.outline ∧
      (map.insert ⟨[3], [9]⟩).1 = { map with root := map.root.mapEntries (Entry.overwrite ⟨[3], [9]⟩) } ∧
      (map.insert ⟨[3], [9]⟩).1.get? [3] = some [9] ∧
      (map.root.remove [2]).2.isSome = map.contains [2] ∧ map.contains [2] = true ∧
      map.contains [2, 0] = false ∧ map.remove [2, 0] = (map, none) ∧
      (map.root.remove [2, 0]).1 = map.root := by
  intro map
  have h : map.Reachable := ((Reachable.empty.insert _).insert _).insert _
  obtain ⟨hinsert, hremove⟩ := untouched_of_reachable h
  obtain ⟨houtline, hmap⟩ := hinsert ⟨[3], [9]⟩ (by decide)
  obtain ⟨habsent, hroot⟩ := (hremove [2, 0]).2 (by decide)
  exact ⟨h, by decide, houtline, hmap, by decide, (hremove [2]).1, by decide, by decide, habsent, hroot⟩

end OrderedMap

end OrderedStore
