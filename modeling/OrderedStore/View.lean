import OrderedStore.Store
import OrderedStore.Utf8

/-!
# Views

A view of a store shows the entries whose keys begin with a stem, without that stem.  Its calls
are calls on the source: keys and bounds are put behind the stem on the way in, and the stem is
taken off the keys on the way out.  A view does not own its source and does not close it.
-/

namespace OrderedStore.Store

variable {σ : Type}

/-- The name that a view gives to one of the statistics of its source. -/
def sourceName (name : String) : String := "prefixdb.source." ++ name

/-- The statistics of a view: its stem, as text and in hexadecimal, and those of the source. -/
def viewStats (stem : Bytes) (source : Stats) : Stats :=
  Stats.setAll
    [("prefixdb.prefix.string", Utf8.decodeLossy stem),
      ("prefixdb.prefix.hex", String.ofList stem.hex)]
    (source.map fun stat => (sourceName stat.1, stat.2))

/-- The view of a store under a stem. -/
def view (source : Store σ) (stem : Bytes) : Store σ where
  get key := do
    .ofExcept (requireKey key)
    source.get (stem ++ key)
  has key := do
    .ofExcept (requireKey key)
    source.has (stem ++ key)
  write sync op := do
    .ofExcept (requireKey op.key)
    source.write sync (op.under stem)
  iterator direction bounds := do
    .ofExcept (requireBounds bounds)
    return .view stem bounds (← source.iterator direction (bounds.under stem))
  newBatch := do return .view stem (← source.newBatch)
  stats state := viewStats stem (source.stats state)
  close := pure ()

end OrderedStore.Store
