import OrderedStore.Tree.Basic

/-!
# Search, insertion and removal

The three operations that follow one path from the root.  Every node on the path of a change is
rebuilt, and rebalanced unless the set of keys stayed as it was.
-/

namespace OrderedStore.Tree

/-- The value stored for a key. -/
def get? (key : Bytes) : Tree → Option Bytes
  | leaf => none
  | node entry _ left right =>
    if key < entry.key then left.get? key
    else if entry.key < key then right.get? key
    else some entry.value

/-- Rebalances a tree if a change happened below its root. -/
def rebalanceIf (changed : Bool) (tree : Tree) : Tree :=
  if changed then tree.rebalance else tree

/-- Stores an entry and returns the value that it replaces.  A present key keeps its node, and the
shape of the tree stays as it is. -/
def insert (new : Entry) : Tree → Tree × Option Bytes
  | leaf => (single new, none)
  | node entry height left right =>
    if new.key < entry.key then
      let (left, replaced) := left.insert new
      (rebalanceIf replaced.isNone (node entry height left right), replaced)
    else if entry.key < new.key then
      let (right, replaced) := right.insert new
      (rebalanceIf replaced.isNone (node entry height left right), replaced)
    else (node ⟨entry.key, new.value⟩ height left right, some entry.value)

/-- Detaches the entry with the smallest key; a leaf has none. -/
def popMin : Tree → Option (Entry × Tree)
  | leaf => none
  | node entry height left right =>
    match left.popMin with
    | none => some (entry, right)
    | some (least, rest) => some (least, (node entry height rest right).rebalance)

/-- Joins two trees of which every key of the first is below every key of the second: the smallest
entry of the second becomes the root. -/
def join : Tree → Tree → Tree
  | leaf, right => right
  | left, leaf => left
  | left, right =>
    match right.popMin with
    | none => left
    | some (least, rest) => branch least left rest

/-- Removes the entry of a key and returns its value; without such an entry nothing changes. -/
def remove (key : Bytes) : Tree → Tree × Option Bytes
  | leaf => (leaf, none)
  | node entry height left right =>
    if key < entry.key then
      let (left, removed) := left.remove key
      (rebalanceIf removed.isSome (node entry height left right), removed)
    else if entry.key < key then
      let (right, removed) := right.remove key
      (rebalanceIf removed.isSome (node entry height left right), removed)
    else ((join left right).rebalance, some entry.value)

@[simp] theorem rebalanceIf_true (tree : Tree) : rebalanceIf true tree = tree.rebalance := rfl

@[simp] theorem rebalanceIf_false (tree : Tree) : rebalanceIf false tree = tree := rfl

@[simp] theorem toList_rebalanceIf (changed : Bool) (tree : Tree) :
    (rebalanceIf changed tree).toList = tree.toList := by
  unfold rebalanceIf
  split <;> simp

theorem toList_popMin {tree rest : Tree} {least : Entry} (h : tree.popMin = some (least, rest)) :
    tree.toList = least :: rest.toList := by
  induction tree generalizing least rest with
  | leaf => simp [popMin] at h
  | node entry height left right ihl _ =>
    simp only [popMin] at h
    split at h
    · next hl =>
      cases left with
      | leaf => simp_all
      | node => simp only [popMin] at hl; split at hl <;> simp at hl
    · next hl =>
      obtain ⟨rfl, rfl⟩ := h
      simp [ihl hl]

end OrderedStore.Tree
