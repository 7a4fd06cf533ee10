import OrderedStore.Tree.Basic

/-!
# Left and right exchanged

Rebalancing treats both sides alike: the mirror image of a rebalanced tree is the rebalanced mirror image.
What is shown of trees whose left side is too high then holds of the other ones as well.

* `Tree.mirror` exchanges left and right at every node.
* `Tree.mirror_rotateLeft` and `Tree.mirror_rebalance` carry the operations over.
-/

namespace OrderedStore.Tree

/-- The tree with the two subtrees of every node exchanged. -/
def mirror : Tree → Tree
  | leaf => leaf
  | node entry height left right => node entry height right.mirror left.mirror

@[simp] theorem mirror_leaf : leaf.mirror = leaf := rfl

@[simp] theorem mirror_node (entry : Entry) (h : Nat) (left right : Tree) :
    (node entry h left right).mirror = node entry h right.mirror left.mirror := rfl

@[simp] theorem mirror_mirror (tree : Tree) : tree.mirror.mirror = tree := by
  induction tree with
  | leaf => rfl
  | node entry h left right ihl ihr => rw [mirror_node, mirror_node, ihl, ihr]

@[simp] theorem height_mirror (tree : Tree) : tree.mirror.height = tree.height := by
  cases tree <;> rfl

@[simp] theorem tilt_mirror (tree : Tree) : tree.mirror.tilt = -tree.tilt := by
  cases tree with
  | leaf => rfl
  | node entry h left right =>
    rw [mirror_node, tilt_node, tilt_node, height_mirror, height_mirror]
    omega

@[simp] theorem mirror_branch (entry : Entry) (left right : Tree) :
    (branch entry left right).mirror = branch entry right.mirror left.mirror := by
  rw [branch, mirror_node, branch, height_mirror, height_mirror, Nat.max_comm]

@[simp] theorem mirror_rotateRight (tree : Tree) :
    tree.rotateRight.mirror = tree.mirror.rotateLeft := by
  rcases tree with _ | ⟨entry, h, _ | ⟨child, k, outer, inner⟩, right⟩ <;>
    simp [rotateRight, rotateLeft]

@[simp] theorem mirror_rotateLeft (tree : Tree) :
    tree.rotateLeft.mirror = tree.mirror.rotateRight := by
  rw [← mirror_mirror tree.mirror.rotateRight, mirror_rotateRight, mirror_mirror]

/-- Rebalancing does the same on both sides. -/
theorem mirror_rebalance (tree : Tree) : tree.rebalance.mirror = tree.mirror.rebalance := by
  cases tree with
  | leaf => rfl
  | node entry h left right =>
    have hleft : (right.height : Int) - left.height < -1 ↔ (1 : Int) < left.height - right.height := by
      omega
    have hright : (1 : Int) < right.height - left.height ↔ (left.height : Int) - right.height < -1 := by
      omega
    simp only [mirror_node, rebalance, height_mirror, tilt_mirror, hleft, hright]
    by_cases hl : (1 : Int) < left.height - right.height
    · have hr : ¬ (left.height : Int) - right.height < -1 := by omega
      simp only [if_pos hl, if_neg hr, mirror_rotateRight, mirror_branch, apply_ite mirror, mirror_rotateLeft,
        Int.neg_pos]
    · simp only [if_neg hl, apply_ite mirror, mirror_rotateLeft, mirror_branch, mirror_rotateRight,
        Int.neg_neg_iff_pos]

end OrderedStore.Tree
