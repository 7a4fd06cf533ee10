import OrderedStore.Contents
import OrderedStore.Engine.Basic

/-!
# Engines over sorted contents

The plainest engine keeps its entries as sorted contents.  It never fails, its cursors show the
range as it is when they are opened, and it applies batches as one.
-/

namespace OrderedStore

/-- The contents after a write. -/
def Contents.applyTo (contents : Contents) : Operation → Contents
  | .set key value => contents.insert ⟨key, value⟩
  | .delete key => contents.erase key

namespace SortedEngine

/-- The items of a range: its entries, without an error. -/
def items (contents : Contents) (direction : Direction) (bounds : Bounds) : List Item :=
  (contents.range direction bounds).map .ok

/-- The engine over sorted contents; `extra` follows its kind and size in the statistics. -/
def engine (kind : String) (extra : Stats) : Engine Contents where
  atomic := true
  get key := return (← getThe Contents).get? key
  write _ op := modify fun contents => contents.applyTo op
  cursor direction bounds := return items (← getThe Contents) direction bounds
  applyAll _ ops := modify fun contents => ops.foldl Contents.applyTo contents
  stats contents :=
    [("database.type", kind), ("database.size", toString contents.size)] ++ extra
  close := pure ()

end SortedEngine

end OrderedStore
