import OrderedStore.Tree.Basic

/-!
# Search trees in machine words

The trees of the ordered map with their heights in words of 32 bits.  A height that does not fit
wraps around, and heights are compared by their difference in words of 64 bits with a sign.  The
operations are those of `Tree`, step by step.

* `WordTree.toTree` reads the heights as numbers, `WordTree.ofTree` stores numbers in words.
* `WordTree.insert`, `WordTree.popMin` and `WordTree.remove` compute in words.
-/

namespace OrderedStore

/-- A binary tree of entries with a stored height of 32 bits. -/
inductive WordTree where
  | leaf
  | node (entry : Entry) (height : UInt32) (left right : WordTree)
  deriving DecidableEq, Inhabited

namespace WordTree

/-- The tree with its stored heights as numbers. -/
def toTree : WordTree → Tree
  | leaf => .leaf
  | node entry height left right => .node entry height.toNat left.toTree right.toTree

/-- The tree with its heights in words; a height that does not fit loses its upper bits. -/
def ofTree : Tree → WordTree
  | .leaf => leaf
  | .node entry height left right => node entry (UInt32.ofNat height) (ofTree left) (ofTree right)

/-! ### Heights -/

/-- The stored height, zero for a leaf. -/
def height : WordTree → UInt32
  | leaf => 0
  | node _ height _ _ => height

/-- A height as a signed word. -/
def signed (height : UInt32) : Int64 := Int64.ofNat height.toNat

/-- By how much one height is above another one. -/
def excess (left right : WordTree) : Int64 := signed left.height - signed right.height

/-- A node whose height is computed; the sum wraps around. -/
def branch (entry : Entry) (left right : WordTree) : WordTree :=
  node entry (max left.height right.height + 1) left right

/-- By how much the left subtree is higher than the right one. -/
def tilt : WordTree → Int64
  | leaf => 0
  | node _ _ left right => excess left right

@[simp] theorem toTree_leaf : leaf.toTree = .leaf := rfl

@[simp] theorem toTree_node (entry : Entry) (h : UInt32) (left right : WordTree) :
    (node entry h left right).toTree = .node entry h.toNat left.toTree right.toTree := rfl

theorem toNat_height (tree : WordTree) : tree.height.toNat = tree.toTree.height := by
  cases tree <;> rfl

/-! ### Rotations -/

/-- Lifts the left child to the root; a tree without one is unchanged. -/
def rotateRight : WordTree → WordTree
  | node top _ (node child _ outer inner) right => branch child outer (branch top inner right)
  | tree => tree

/-- Lifts the right child to the root; a tree without one is unchanged. -/
def rotateLeft : WordTree → WordTree
  | node top _ left (node child _ inner outer) => branch child (branch top left inner) outer
  | tree => tree

/-- Refreshes the height of the root and rotates if one side is too high. -/
def rebalance : WordTree → WordTree
  | leaf => leaf
  | node entry _ left right =>
    if 1 < excess left right then
      (branch entry (if left.tilt < 0 then left.rotateLeft else left) right).rotateRight
    else if excess left right < -1 then
      (branch entry left (if 0 < right.tilt then right.rotateRight else right)).rotateLeft
    else branch entry left right

/-- Rebalances a tree if a change happened below its root. -/
def rebalanceIf (changed : Bool) (tree : WordTree) : WordTree :=
  if changed then tree.rebalance else tree

/-! ### Changes -/

/-- Stores an entry and returns the value that it replaces. -/
def insert (new : Entry) : WordTree → WordTree × Option Bytes
  | leaf => (branch new leaf leaf, none)
  | node entry height left right =>
    if new.key < entry.key then
      let (left, replaced) := left.insert new
      (rebalanceIf replaced.isNone (node entry height left right), replaced)
    else if entry.key < new.key then
      let (right, replaced) := right.insert new
      (rebalanceIf replaced.isNone (node entry height left right), replaced)
    else (node ⟨entry.key, new.value⟩ height left right, some entry.value)

/-- Detaches the entry with the smallest key; a leaf has none. -/
def popMin : WordTree → Option (Entry × WordTree)
  | leaf => none
  | node entry height left right =>
    match left.popMin with
    | none => some (entry, right)
    | some (least, rest) => some (least, (node entry height rest right).rebalance)

/-- Joins two trees; the smallest entry of the second becomes the root. -/
def join : WordTree → WordTree → WordTree
  | leaf, right => right
  | left, leaf => left
  | left, right =>
    match right.popMin with
    | none => left
    | some (least, rest) => branch least left rest

/-- Removes the entry of a key and returns its value; without such an entry nothing changes. -/
def remove (key : Bytes) : WordTree → WordTree × Option Bytes
  | leaf => (leaf, none)
  | node entry height left right =>
    if key < entry.key then
      let (left, removed) := left.remove key
      (rebalanceIf removed.isSome (node entry height left right), removed)
    else if entry.key < key then
      let (right, removed) := right.remove key
      (rebalanceIf removed.isSome (node entry height left right), removed)
    else ((join left right).rebalance, some entry.value)

end WordTree

end OrderedStore
