import OrderedStore.Tree.Update

/-!
# Changes that can be watched

Insertion and removal, in which every rebalancing is an action, and so is what they do where an entry that
has to be there is missing.  An action that only rebalances gives the changes themselves; another one can
put down what it is asked to do.

* `Tree.rebalanceBy`, `Tree.insertBy`, `Tree.popMinBy` and `Tree.removeBy` take their actions as arguments.
* `Tree.rebalanceBy_pure`, `Tree.insertBy_pure`, `Tree.popMinBy_pure` and `Tree.removeBy_pure` say that they
  are the plain operations otherwise.
* `Tree.Rebalancing` is the record of one rebalancing, and `Tree.noted` the action that makes it.
-/

namespace OrderedStore.Tree

variable {m : Type → Type} [Monad m]

/-! ### Rotations as actions -/

/-- A tree that is to be rotated, with the direction. -/
inductive Rotation where
  | right (tree : Tree)
  | left (tree : Tree)
  deriving DecidableEq

namespace Rotation

/-- The rotated tree. -/
def result : Rotation → Tree
  | right tree => tree.rotateRight
  | left tree => tree.rotateLeft

/-- The child that a rotation lifts to the root is there.  Without it the tree is returned as it is. -/
def lifts : Rotation → Bool
  | right (node _ _ (node ..) _) => true
  | left (node _ _ _ (node ..)) => true
  | _ => false

end Rotation

/-- Rebalances a tree; rotations are actions. -/
def rebalanceBy (rotate : Rotation → m Tree) : Tree → m Tree
  | leaf => pure leaf
  | node entry _ left right =>
    let tilt : Int := left.height - right.height
    if 1 < tilt then do
      let left ← if left.tilt < 0 then rotate (.left left) else pure left
      rotate (.right (branch entry left right))
    else if tilt < -1 then do
      let right ← if 0 < right.tilt then rotate (.right right) else pure right
      rotate (.left (branch entry left right))
    else pure (branch entry left right)

/-! ### Changes with rebalancing as an action

The action is given the subtree that stood in the place before the change, and the one to rebalance. -/

/-- Rebalances a tree if a change happened below its root. -/
def rebalanceIfBy (rebalance : Tree → Tree → m Tree) (changed : Bool) (old tree : Tree) : m Tree :=
  if changed then rebalance old tree else pure tree

/-- Stores an entry and returns the value that it replaces. -/
def insertBy (rebalance : Tree → Tree → m Tree) (new : Entry) : Tree → m (Tree × Option Bytes)
  | leaf => pure (single new, none)
  | node entry height left right =>
    let old := node entry height left right
    if new.key < entry.key then do
      let (left, replaced) ← left.insertBy rebalance new
      let tree ← rebalanceIfBy rebalance replaced.isNone old (node entry height left right)
      return (tree, replaced)
    else if entry.key < new.key then do
      let (right, replaced) ← right.insertBy rebalance new
      let tree ← rebalanceIfBy rebalance replaced.isNone old (node entry height left right)
      return (tree, replaced)
    else pure (node ⟨entry.key, new.value⟩ height left right, some entry.value)

/-- Detaches the entry with the smallest key; a leaf has none. -/
def popMinBy (rebalance : Tree → Tree → m Tree) : Tree → m (Option (Entry × Tree))
  | leaf => pure none
  | node entry height left right => do
    match ← left.popMinBy rebalance with
    | none => return some (entry, right)
    | some (least, rest) =>
      let tree ← rebalance (node entry height left right) (node entry height rest right)
      return some (least, tree)

/-- Joins two trees; the smallest entry of the second becomes the root.  `bereft` says what becomes of the
first tree if the second has no such entry, although it is not a leaf. -/
def joinBy (rebalance : Tree → Tree → m Tree) (bereft : Tree → m Tree) : Tree → Tree → m Tree
  | leaf, right => pure right
  | left, leaf => pure left
  | left, right => do
    match ← right.popMinBy rebalance with
    | none => bereft left
    | some (least, rest) => return branch least left rest

/-- Removes the entry of a key and returns its value. -/
def removeBy (rebalance : Tree → Tree → m Tree) (bereft : Tree → m Tree) (key : Bytes) :
    Tree → m (Tree × Option Bytes)
  | leaf => pure (leaf, none)
  | node entry height left right =>
    let old := node entry height left right
    if key < entry.key then do
      let (left, removed) ← left.removeBy rebalance bereft key
      let tree ← rebalanceIfBy rebalance removed.isSome old (node entry height left right)
      return (tree, removed)
    else if entry.key < key then do
      let (right, removed) ← right.removeBy rebalance bereft key
      let tree ← rebalanceIfBy rebalance removed.isSome old (node entry height left right)
      return (tree, removed)
    else do
      let tree ← rebalance old (← joinBy rebalance bereft left right)
      return (tree, some entry.value)

/-! ### Nothing is watched -/

theorem rebalanceIfBy_pure (changed : Bool) (old tree : Tree) :
    rebalanceIfBy (fun _ given => pure given.rebalance) changed old tree =
      (pure (rebalanceIf changed tree) : m Tree) := by
  cases changed <;> rfl

section Pure

variable [LawfulMonad m]

theorem rebalanceBy_pure (tree : Tree) :
    tree.rebalanceBy (fun rotation => pure rotation.result) = (pure tree.rebalance : m Tree) := by
  cases tree with
  | leaf => rfl
  | node entry h left right =>
    simp only [rebalanceBy, rebalance]
    split
    · split <;> simp [Rotation.result]
    · split
      · split <;> simp [Rotation.result]
      · rfl

theorem insertBy_pure (new : Entry) (tree : Tree) :
    tree.insertBy (fun _ given => pure given.rebalance) new = (pure (tree.insert new) : m _) := by
  induction tree with
  | leaf => rfl
  | node entry h left right ihl ihr =>
    simp only [insertBy, insert, ihl, ihr, rebalanceIfBy_pure, pure_bind]
    split
    · rfl
    · split <;> rfl

theorem popMinBy_pure (tree : Tree) :
    tree.popMinBy (fun _ given => pure given.rebalance) = (pure tree.popMin : m _) := by
  induction tree with
  | leaf => rfl
  | node entry h left right ihl _ =>
    simp only [popMinBy, popMin, ihl, pure_bind]
    cases left.popMin <;> rfl

theorem joinBy_pure (left right : Tree) :
    joinBy (fun _ given => pure given.rebalance) pure left right = (pure (join left right) : m _) := by
  cases left with
  | leaf => rfl
  | node =>
    cases right with
    | leaf => rfl
    | node entry h near far =>
      simp only [joinBy, join, popMinBy_pure, pure_bind]
      cases (node entry h near far).popMin <;> rfl

theorem removeBy_pure (key : Bytes) (tree : Tree) :
    tree.removeBy (fun _ given => pure given.rebalance) pure key = (pure (tree.remove key) : m _) := by
  induction tree with
  | leaf => rfl
  | node entry h left right ihl ihr =>
    simp only [removeBy, remove, ihl, ihr, rebalanceIfBy_pure, joinBy_pure, pure_bind]
    split
    · rfl
    · split <;> rfl

end Pure

/-! ### Records -/

/-- Rotates and writes down what was rotated.  Without a child to lift the run fails. -/
def Rotation.noted (rotation : Rotation) : StateT (List Rotation) Option Tree := do
  guard rotation.lifts
  modify (· ++ [rotation])
  return rotation.result

/-- The record of one rebalancing. -/
structure Rebalancing where
  /-- What stood in the place before the change. -/
  old : Tree
  /-- What was to be rebalanced. -/
  given : Tree
  /-- The rotations, in their order. -/
  rotations : List Rotation
  /-- What was made of it. -/
  result : Tree
  deriving DecidableEq

/-- Rebalances a tree and writes down how. -/
def noted (old given : Tree) : StateT (List Rebalancing) Option Tree := do
  let (result, rotations) ← (given.rebalanceBy Rotation.noted).run []
  modify (· ++ [⟨old, given, rotations, result⟩])
  return result

/-- The rebalancing had to rotate. -/
def Rebalancing.rotates (call : Rebalancing) : Bool := !call.rotations.isEmpty

/-- Removes the entry of a key, with a record.  The run fails where a removed root has to be replaced and
there is no entry for it. -/
def removeNoted (key : Bytes) (tree : Tree) : StateT (List Rebalancing) Option (Tree × Option Bytes) :=
  tree.removeBy noted (fun _ => failure) key

end OrderedStore.Tree
