import OrderedStore.Proofs.Tree.Depth
import OrderedStore.Proofs.Tree.Words

/-!
# The depth of ordered maps

A reachable map is as shallow as its number of entries allows a balanced tree to be.  Searching it takes no
more comparisons than it has levels, and a map of fewer than `2 ^ 64` entries is so shallow that its heights
can be computed in words of 32 bits.

* `OrderedMap.getBy` and `OrderedMap.containsBy` are the searches with their comparisons as actions.
* `WordTree.Follows` are the trees in words that have the same history as a map; `WordTree.Follows.toTree_eq`
  says that they are the trees of the maps.
* `OrderedMap.depth_of_reachable` bounds levels, comparisons and words.
-/

namespace OrderedStore

/-! ### Histories in words -/

namespace OrderedMap

variable {map : OrderedMap}

theorem WellFormed.roomy (hw : map.WellFormed) (hsize : map.size < 2 ^ 64) : map.root.Roomy := by
  have hheight := hw.balanced.height_le (by rw [← hw.size_eq]; exact hsize)
  exact ⟨hw.balanced, by omega⟩

/-- An insertion in words makes the tree of the map that the insertion makes. -/
theorem WellFormed.toTree_insert (hw : map.WellFormed) (hsize : map.size < 2 ^ 64) {words : WordTree}
    (hwords : words.toTree = map.root) (entry : Entry) :
    (words.insert entry).1.toTree = (map.insert entry).1.root := by
  have hroom := hw.roomy hsize
  rw [← hwords] at hroom
  rw [root_insert, ← hwords, ← WordTree.toTree_insert hroom entry]
  rfl

/-- A removal in words makes the tree of the map that the removal makes. -/
theorem WellFormed.toTree_remove (hw : map.WellFormed) (hsize : map.size < 2 ^ 64) {words : WordTree}
    (hwords : words.toTree = map.root) (key : Bytes) :
    (words.remove key).1.toTree = (map.remove key).1.root := by
  have hroom := hw.roomy hsize
  rw [← hwords] at hroom
  rw [root_remove, ← hwords, ← WordTree.toTree_remove hroom key]
  rfl

end OrderedMap

/-- The trees in words that are made of the empty one by the insertions and removals that make a map, none of
them at `2 ^ 64` entries or more. -/
inductive WordTree.Follows : WordTree → OrderedMap → Prop
  | empty : Follows .leaf .empty
  | insert {words : WordTree} {map : OrderedMap} (entry : Entry) (h : Follows words map)
      (hsize : map.size < 2 ^ 64) : Follows (words.insert entry).1 (map.insert entry).1
  | remove {words : WordTree} {map : OrderedMap} (key : Bytes) (h : Follows words map)
      (hsize : map.size < 2 ^ 64) : Follows (words.remove key).1 (map.remove key).1

theorem WordTree.Follows.reachable {words : WordTree} {map : OrderedMap} (h : words.Follows map) :
    map.Reachable := by
  induction h with
  | empty => exact .empty
  | insert entry _ _ ih => exact ih.insert entry
  | remove key _ _ ih => exact ih.remove key

/-- Through a whole history no height wraps around. -/
theorem WordTree.Follows.toTree_eq {words : WordTree} {map : OrderedMap} (h : words.Follows map) :
    words.toTree = map.root := by
  induction h with
  | empty => rfl
  | insert entry h hsize ih => exact h.reachable.wellFormed.toTree_insert hsize ih entry
  | remove key h hsize ih => exact h.reachable.wellFormed.toTree_remove hsize ih key

namespace OrderedMap

/-! ### Depth -/

/-- The search for the value of a key; comparing the key with that of a node is an action. -/
def getBy {m : Type → Type} [Monad m] (compareWith : Bytes → m Ordering) (map : OrderedMap) :
    m (Option Bytes) :=
  map.root.searchBy compareWith

/-- The search for a key; comparing it with that of a node is an action. -/
def containsBy {m : Type → Type} [Monad m] (compareWith : Bytes → m Ordering) (map : OrderedMap) : m Bool :=
  Option.isSome <$> map.getBy compareWith

/-- **Reachable maps are shallow.**  The height of a map is bounded by its number of entries, as that of a
balanced tree is.  Looking for a key, present or absent, compares it with at most one node on each level, and
counting the comparisons does not change what is found.  With fewer than `2 ^ 64` entries there are at most 91
levels; the heights then fit in words of 32 bits, and insertions and removals that compute in such words, and
compare heights by signed differences of 64 bits, make exactly the trees that they make with numbers, one by one
and through whole histories. -/
theorem depth_of_reachable {map : OrderedMap} (h : map.Reachable) :
    Nat.fib (map.root.height + 2) ≤ map.size + 1 ∧
      (∀ key, ∃ compared ≤ map.root.height,
        (map.getBy (Tree.counting key)).run 0 = (map.get? key, compared) ∧
          (map.containsBy (Tree.counting key)).run 0 = (map.contains key, compared)) ∧
      (map.size < 2 ^ 64 → map.root.height ≤ 91 ∧
        ∃ words : WordTree, words.toTree = map.root ∧
          (∀ entry, (words.insert entry).1.toTree = (map.insert entry).1.root) ∧
          ∀ key, (words.remove key).1.toTree = (map.remove key).1.root) ∧
      ∀ words : WordTree, words.Follows map → words.toTree = map.root := by
  have hw := h.wellFormed
  refine ⟨?_, fun key => ?_, fun hsize => ?_, fun words hfollows => hfollows.toTree_eq⟩
  · rw [hw.size_eq]
    exact hw.balanced.fib_le
  · obtain ⟨compared, hle, hrun⟩ := hw.balanced.run_searchBy_counting key 0
    rw [Nat.zero_add] at hrun
    refine ⟨compared, hle, hrun, ?_⟩
    show (Option.isSome <$> map.root.searchBy (Tree.counting key)).run 0 = _
    rw [StateT.run_map, hrun]
    rfl
  · have hroom := hw.roomy hsize
    have hwords : (WordTree.ofTree map.root).toTree = map.root :=
      WordTree.toTree_ofTree hroom.balanced.heightsUpTo (by have := hroom.height_lt; omega)
    rw [hw.size_eq] at hsize
    refine ⟨hw.balanced.height_le hsize, _, hwords, fun entry => ?_, fun key => ?_⟩
    · exact hw.toTree_insert (by rw [hw.size_eq]; exact hsize) hwords entry
    · exact hw.toTree_remove (by rw [hw.size_eq]; exact hsize) hwords key

/-- The sparsest map of three levels: an absent key below its longest path is compared on each of them, and a
removal from its shortest path has to rotate. -/
theorem depth_of_reachable_sparse :
    let map := ((((empty.insert ⟨[5], []⟩).1.insert ⟨[3], []⟩).1.insert ⟨[7], []⟩).1.insert ⟨[8], [1]⟩).1
    let words := ((((WordTree.leaf.insert ⟨[5], []⟩).1.insert ⟨[3], []⟩).1.insert ⟨[7], []⟩).1.insert
      ⟨[8], [1]⟩).1
    map.Reachable ∧ Nat.fib (map.root.height + 2) ≤ map.size + 1 ∧ Nat.fib (3 + 2) = map.size + 1 ∧
      (∃ compared ≤ map.root.height, (map.getBy (Tree.counting [9])).run 0 = (none, compared) ∧
        (map.containsBy (Tree.counting [9])).run 0 = (false, compared) ∧ compared = 3) ∧
      map.root.height ≤ 91 ∧ words.Follows map ∧ words.toTree = map.root ∧
      (words.remove [3]).1.toTree = (map.remove [3]).1.root ∧
      (map.remove [3]).1.root.height = 2 := by
  intro map words
  have h : map.Reachable := (((Reachable.empty.insert _).insert _).insert _).insert _
  have hfollows : words.Follows map :=
    (((WordTree.Follows.empty.insert _ (by decide)).insert _ (by decide)).insert _ (by decide)).insert _
      (by decide)
  obtain ⟨hfib, hsearch, hsmall, hruns⟩ := depth_of_reachable h
  obtain ⟨hheight, -⟩ := hsmall (by decide)
  obtain ⟨compared, hle, hget, hcontains⟩ := hsearch [9]
  have hwords := hruns words hfollows
  have hnext := (depth_of_reachable (h.remove [3])).2.2.2 _ (hfollows.remove [3] (by decide))
  exact ⟨h, hfib, by decide, ⟨compared, hle, hget, hcontains, congrArg Prod.snd (hget.symm.trans rfl)⟩, hheight,
    hfollows, hwords, hnext, by decide⟩

end OrderedMap

end OrderedStore
