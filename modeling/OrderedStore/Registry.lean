import OrderedStore.Config

/-!
# Registries

A registry says how the stores of each backend are opened.  Stores are opened by name in a
directory, by the creator that is registered for their backend.
-/

namespace OrderedStore

/-- The creators of stores, of type `κ`, for the backends that have one. -/
structure Registry (κ : Type) where
  creator? : Backend → Option κ

namespace Registry

variable {κ : Type}

/-- A registry without creators. -/
def empty : Registry κ := ⟨fun _ => none⟩

/-- Registers a creator.  One that is there is replaced only if `force` is true.  Answers whether
the creator has been registered. -/
def register (registry : Registry κ) (backend : Backend) (creator : κ) (force : Bool) :
    Registry κ × Bool :=
  if force || (registry.creator? backend).isNone then
    (⟨fun other => if other = backend then some creator else registry.creator? other⟩, true)
  else (registry, false)

/-- The backends that have a creator, in their order. -/
def backends (registry : Registry κ) : List Backend :=
  Backend.all.filter fun backend => (registry.creator? backend).isSome

/-- The creator of a backend. -/
def creator (registry : Registry κ) (backend : Backend) : Except StoreError κ :=
  match registry.creator? backend with
  | none => .error (.unknownBackend backend.name)
  | some creator => .ok creator

/-- The labels of the backends that have a creator. -/
def render (registry : Registry κ) : String :=
  "Registry \x7b backends: [" ++
    String.intercalate ", " (registry.backends.map Backend.label) ++ "] \x7d"

end Registry

end OrderedStore
