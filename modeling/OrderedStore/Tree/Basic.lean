import OrderedStore.Entry

/-!
# Height-balanced search trees

The nodes of the ordered map: a binary search tree whose nodes carry an entry and their height.

* `Tree.toList` lists the entries from left to right.
* `Tree.rebalance` recomputes the height of a root and restores the balance of a tree whose two
  subtrees are balanced and differ in height by at most two, with one or two rotations.
* `Tree.render` writes the whole shape of a tree.
-/

namespace OrderedStore

/-- A binary tree of entries; `height` is stored and not recomputed when read. -/
inductive Tree where
  | leaf
  | node (entry : Entry) (height : Nat) (left right : Tree)
  deriving DecidableEq, Inhabited

namespace Tree

/-- The stored height, zero for a leaf. -/
def height : Tree → Nat
  | leaf => 0
  | node _ height _ _ => height

/-- The number of nodes. -/
def size : Tree → Nat
  | leaf => 0
  | node _ _ left right => left.size + right.size + 1

/-- The entries from left to right. -/
def toList : Tree → List Entry
  | leaf => []
  | node entry _ left right => left.toList ++ entry :: right.toList

/-- A node whose height is one more than that of its higher subtree. -/
def branch (entry : Entry) (left right : Tree) : Tree :=
  node entry (max left.height right.height + 1) left right

/-- A node without subtrees. -/
def single (entry : Entry) : Tree := branch entry leaf leaf

/-- By how much the left subtree is higher than the right one. -/
def tilt : Tree → Int
  | leaf => 0
  | node _ _ left right => left.height - right.height

@[simp] theorem height_leaf : leaf.height = 0 := rfl

@[simp] theorem height_node (entry : Entry) (h : Nat) (left right : Tree) :
    (node entry h left right).height = h := rfl

@[simp] theorem height_branch (entry : Entry) (left right : Tree) :
    (branch entry left right).height = max left.height right.height + 1 := rfl

theorem tilt_node (entry : Entry) (h : Nat) (left right : Tree) :
    (node entry h left right).tilt = left.height - right.height := rfl

@[simp] theorem toList_leaf : leaf.toList = [] := rfl

@[simp] theorem toList_node (entry : Entry) (h : Nat) (left right : Tree) :
    (node entry h left right).toList = left.toList ++ entry :: right.toList := rfl

@[simp] theorem toList_branch (entry : Entry) (left right : Tree) :
    (branch entry left right).toList = left.toList ++ entry :: right.toList := rfl

theorem length_toList (tree : Tree) : tree.toList.length = tree.size := by
  induction tree with
  | leaf => rfl
  | node entry h left right ihl ihr => simp [size, ihl, ihr]; omega

/-! ### Rotations -/

/-- Lifts the left child to the root; a tree without one is unchanged. -/
def rotateRight : Tree → Tree
  | node top _ (node child _ outer inner) right => branch child outer (branch top inner right)
  | tree => tree

/-- Lifts the right child to the root; a tree without one is unchanged. -/
def rotateLeft : Tree → Tree
  | node top _ left (node child _ inner outer) => branch child (branch top left inner) outer
  | tree => tree

@[simp] theorem toList_rotateRight (tree : Tree) : tree.rotateRight.toList = tree.toList := by
  unfold rotateRight
  split <;> simp

@[simp] theorem toList_rotateLeft (tree : Tree) : tree.rotateLeft.toList = tree.toList := by
  unfold rotateLeft
  split <;> simp

/-- Refreshes the height of the root and rotates if one side is higher than the other by more than
one; a child that leans strictly to the inner side is rotated outwards first. -/
def rebalance : Tree → Tree
  | leaf => leaf
  | node entry _ left right =>
    let tilt : Int := left.height - right.height
    if 1 < tilt then
      -- A left child that leans to the right would only pass the weight on.
      (branch entry (if left.tilt < 0 then left.rotateLeft else left) right).rotateRight
    else if tilt < -1 then
      (branch entry left (if 0 < right.tilt then right.rotateRight else right)).rotateLeft
    else branch entry left right

@[simp] theorem toList_rebalance (tree : Tree) : tree.rebalance.toList = tree.toList := by
  cases tree with
  | leaf => rfl
  | node entry h left right =>
    simp only [rebalance]
    split
    · split <;> simp
    · split
      · split <;> simp
      · simp

/-! ### Written form -/

/-- The nested shape of a tree with the entry and the stored height of every node. -/
def render : Tree → String
  | leaf => "None"
  | node entry height left right =>
    "Some(Node \x7b key: " ++ Bytes.decimals entry.key ++ ", value: " ++
      Bytes.decimals entry.value ++ ", height: " ++ toString height ++ ", left: " ++ left.render ++
      ", right: " ++ right.render ++ " \x7d)"

end Tree

end OrderedStore
