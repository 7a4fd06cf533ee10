import OrderedStore.View

/-!
# Calls through a view

A call through a view is refused if its key or one of its bounds is empty, and is a call on the source
otherwise.
-/

namespace OrderedStore

namespace Store

variable {σ : Type} (store : Store σ) (stem : Bytes)

theorem view_get_nil : (store.view stem).get [] = throw .emptyKey := rfl

theorem view_has_nil : (store.view stem).has [] = throw .emptyKey := rfl

variable {key : Bytes} {op : Operation} {bounds : Bounds}

theorem view_get_of_ne_nil (h : key ≠ []) : (store.view stem).get key = store.get (stem ++ key) := by
  show (StoreM.ofExcept (requireKey key) >>= fun _ => store.get (stem ++ key)) = _
  rw [requireKey_of_ne_nil h]
  rfl

theorem view_has_of_ne_nil (h : key ≠ []) : (store.view stem).has key = store.has (stem ++ key) := by
  show (StoreM.ofExcept (requireKey key) >>= fun _ => store.has (stem ++ key)) = _
  rw [requireKey_of_ne_nil h]
  rfl

theorem view_write_of_eq_nil (h : op.key = []) (sync : Bool) :
    (store.view stem).write sync op = throw .emptyKey := by
  show (StoreM.ofExcept (requireKey op.key) >>= fun _ => store.write sync (op.under stem)) = _
  rw [h]
  rfl

theorem view_write_of_ne_nil (h : op.key ≠ []) (sync : Bool) :
    (store.view stem).write sync op = store.write sync (op.under stem) := by
  show (StoreM.ofExcept (requireKey op.key) >>= fun _ => store.write sync (op.under stem)) = _
  rw [requireKey_of_ne_nil h]
  rfl

theorem view_iterator_of_hasEmpty (h : bounds.hasEmpty = true) (direction : Direction) :
    (store.view stem).iterator direction bounds = throw .emptyKey := by
  show (StoreM.ofExcept (requireBounds bounds) >>= _) = _
  rw [requireBounds_of_hasEmpty h]
  rfl

theorem view_iterator_of_hasEmpty_eq_false (h : bounds.hasEmpty = false) (direction : Direction) :
    (store.view stem).iterator direction bounds =
      Iterator.view stem bounds <$> store.iterator direction (bounds.under stem) := by
  show (StoreM.ofExcept (requireBounds bounds) >>= _) = _
  rw [requireBounds_of_hasEmpty_eq_false h]
  rfl

end Store

end OrderedStore
