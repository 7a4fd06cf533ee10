import OrderedStore.Store

/-!
# Storage engines

An engine offers raw reads and writes, cursors, and possibly batches that are applied as one.  The
store over an engine adds the checks of keys and bounds, iterators, and batches for every engine: a
batch on an engine that cannot apply one as a whole is run as a transaction.
-/

namespace OrderedStore

/-- The raw calls of an engine with state `σ`. -/
structure Engine (σ : Type) where
  /-- Whether `applyAll` applies its operations as one. -/
  atomic : Bool
  /-- The value stored for a key. -/
  get : Bytes → StoreM σ (Option Bytes)
  /-- Sets or deletes a key, durably if `sync` is true. -/
  write : (sync : Bool) → Operation → StoreM σ Unit
  /-- The items of a range in the given direction. -/
  cursor : Direction → Bounds → StoreM σ (List Item)
  /-- Applies operations in order; called only if `atomic` is true. -/
  applyAll : (sync : Bool) → List Operation → StoreM σ Unit
  /-- The statistics in the present state. -/
  stats : σ → Stats
  /-- Closes the engine. -/
  close : StoreM σ Unit

namespace Engine

variable {σ : Type} (engine : Engine σ)

/-- Reading and writing single keys through the engine; empty keys do not reach it. -/
def points : Points σ where
  get key := do
    .ofExcept (requireKey key)
    engine.get key
  has key := do
    .ofExcept (requireKey key)
    return (← engine.get key).isSome
  write sync op := do
    .ofExcept (requireKey op.key)
    engine.write sync op

/-- The transaction that makes the writes of a batch one by one. -/
def transactionOf (sync : Bool) (ops : List Operation) : Transaction (Points σ) σ :=
  .ofSteps (ops.map fun op => ⟨op.key, fun points => points.write sync op⟩)

/-- Applies the operations of a batch: as one if the engine can, else as a transaction. -/
def applyBatch (sync : Bool) (ops : List Operation) : StoreM σ Unit :=
  if engine.atomic then engine.applyAll sync ops
  else do
    let points := engine.points
    let (outcome, _) ← .ofState <|
      (transactionOf sync ops).runOn points fun key => points.write false (.delete key)
    .ofExcept outcome

/-- The store over an engine. -/
def store : Store σ where
  toPoints := engine.points
  iterator direction bounds := do
    .ofExcept (requireBounds bounds)
    return .ofItems bounds (← engine.cursor direction bounds)
  newBatch := pure (.queued engine.applyBatch .empty)
  stats := engine.stats
  close := engine.close

end Engine

end OrderedStore
