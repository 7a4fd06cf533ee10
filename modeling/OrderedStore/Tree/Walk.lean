import OrderedStore.Tree.Basic

/-!
# Walks through a tree

A walk shows the entries of a range to a visitor, in increasing or in decreasing order of their
keys, until the visitor asks to stop.  The visitor acts in any monad, so it may keep a state.
A walk answers whether it went to its end.
-/

namespace OrderedStore.Tree

variable {m : Type → Type} [Monad m]

/-- The second action follows only if the first one asks to go on. -/
def andThen (first second : m Bool) : m Bool := do
  if ← first then second else pure false

/-- An action that is left out unless the condition holds. -/
def onlyIf (condition : Bool) (action : m Bool) : m Bool :=
  if condition then action else pure true

/-- Shows the entries with keys from `lower` to below `upper` in increasing order.  The walk ends
at the first key that is not below `upper`. -/
def ascend (bounds : Bounds) (visit : Entry → m Bool) : Tree → m Bool
  | leaf => pure true
  | node entry _ left right =>
    let above := bounds.lowerAdmits entry.key
    -- Below the lower bound neither the node nor anything to its left is in the range.
    andThen (onlyIf above (left.ascend bounds visit)) <|
      andThen (pure (bounds.upperAdmits entry.key)) <|
        andThen (onlyIf above (visit entry)) (right.ascend bounds visit)

/-- A key is not above `highest`; without `highest` none is. -/
def upTo (highest : Option Bytes) (key : Bytes) : Bool :=
  highest.all fun highest => decide (key ≤ highest)

/-- Shows the entries with keys up to and including `highest` in decreasing order. -/
def descend (highest : Option Bytes) (visit : Entry → m Bool) : Tree → m Bool
  | leaf => pure true
  | node entry _ left right =>
    andThen
      (onlyIf (upTo highest entry.key) (andThen (right.descend highest visit) (visit entry)))
      (left.descend highest visit)

end OrderedStore.Tree
