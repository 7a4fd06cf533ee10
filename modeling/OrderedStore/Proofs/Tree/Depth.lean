import Mathlib.Data.Nat.Fib.Basic
import Mathlib.Order.Compare
import OrderedStore.Proofs.Tree.Balance

/-!
# Depth

A balanced tree of some height has at least as many nodes as the Fibonacci numbers tell, and a search
compares its key with one node on each level.

* `Tree.Balanced.fib_le` counts the nodes of a balanced tree.
* `Tree.searchBy` is the search with the comparison as an action; `Tree.Balanced.run_searchBy_counting`
  counts the actions.
-/

namespace OrderedStore.Tree

/-! ### Nodes and levels -/

/-- A tree is as high as its sparsest shape allows: one subtree may be lower than the other by one, at every
node. -/
theorem Balanced.fib_le {tree : Tree} (hb : tree.Balanced) : Nat.fib (tree.height + 2) ≤ tree.size + 1 := by
  induction tree with
  | leaf => decide
  | node entry h left right ihl ihr =>
    obtain ⟨hh, hlr, hrl, hl, hr⟩ := hb
    have hleft := ihl hl
    have hright := ihr hr
    rw [height_node, size_node]
    rcases Nat.le_total right.height left.height with hle | hle
    · have hlow : Nat.fib (left.height + 1) ≤ Nat.fib (right.height + 2) := Nat.fib_mono (by omega)
      have hsum : Nat.fib (left.height + 1 + 2) = Nat.fib (left.height + 1) + Nat.fib (left.height + 2) :=
        Nat.fib_add_two
      rw [hh, Nat.max_eq_left hle]
      omega
    · have hlow : Nat.fib (right.height + 1) ≤ Nat.fib (left.height + 2) := Nat.fib_mono (by omega)
      have hsum : Nat.fib (right.height + 1 + 2) = Nat.fib (right.height + 1) + Nat.fib (right.height + 2) :=
        Nat.fib_add_two
      rw [hh, Nat.max_eq_right hle]
      omega

/-- Fewer than `2 ^ 64` nodes stand on at most 91 levels. -/
theorem Balanced.height_le {tree : Tree} (hb : tree.Balanced) (hsize : tree.size < 2 ^ 64) :
    tree.height ≤ 91 := by
  by_contra hlt
  have hfib : Nat.fib 94 ≤ Nat.fib (tree.height + 2) := Nat.fib_mono (by omega)
  have hvalue : 2 ^ 64 < Nat.fib 94 := by decide +kernel
  have := hb.fib_le
  omega

/-! ### Searches -/

/-- The search for a key; comparing it with the key of a node is an action. -/
def searchBy {m : Type → Type} [Monad m] (compareWith : Bytes → m Ordering) : Tree → m (Option Bytes)
  | leaf => pure none
  | node entry _ left right => do
    match ← compareWith entry.key with
    | .lt => left.searchBy compareWith
    | .gt => right.searchBy compareWith
    | .eq => return some entry.value

/-- Compares a key and counts the comparison. -/
def counting (key other : Bytes) : StateM Nat Ordering := do
  modify (· + 1)
  return cmp key other

theorem run_searchBy_node (key : Bytes) (entry : Entry) (h : Nat) (left right : Tree) (count : Nat) :
    ((node entry h left right).searchBy (counting key)).run count =
      match cmp key entry.key with
      | .lt => (left.searchBy (counting key)).run (count + 1)
      | .gt => (right.searchBy (counting key)).run (count + 1)
      | .eq => (some entry.value, count + 1) := by
  show StateT.run (match cmp key entry.key with
      | .lt => left.searchBy (counting key)
      | .gt => right.searchBy (counting key)
      | .eq => pure (some entry.value)) (count + 1) = _
  cases cmp key entry.key <;> rfl

/-- Counting changes nothing in what is found, and no level is compared with twice. -/
theorem Balanced.run_searchBy_counting {tree : Tree} (hb : tree.Balanced) (key : Bytes) (count : Nat) :
    ∃ compared ≤ tree.height,
      (tree.searchBy (counting key)).run count = (tree.get? key, count + compared) := by
  induction tree generalizing count with
  | leaf => exact ⟨0, Nat.le_refl _, rfl⟩
  | node entry h left right ihl ihr =>
    obtain ⟨hh, -, -, hl, hr⟩ := hb
    rw [run_searchBy_node, get?_node, height_node, cmp, cmpUsing]
    split_ifs with hlt hgt
    · obtain ⟨compared, hle, hrun⟩ := ihl hl (count + 1)
      exact ⟨compared + 1, by omega, hrun.trans (by rw [Nat.add_right_comm, Nat.add_assoc])⟩
    · obtain ⟨compared, hle, hrun⟩ := ihr hr (count + 1)
      exact ⟨compared + 1, by omega, hrun.trans (by rw [Nat.add_right_comm, Nat.add_assoc])⟩
    · exact ⟨1, by omega, rfl⟩

end OrderedStore.Tree
