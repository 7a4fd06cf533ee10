import OrderedStore.StoreError

/-!
# Backends

The kinds of stores that can be opened by name.
-/

namespace OrderedStore

/-- A kind of store. -/
inductive Backend where
  /-- Entries are held in memory. -/
  | memory
  /-- Entries are kept on disk. -/
  | disk
  deriving DecidableEq

namespace Backend

/-- All backends in their order. -/
def all : List Backend := [memory, disk]

/-- The name by which a backend is chosen. -/
def name : Backend → String
  | memory => "memdb"
  | disk => "sled"

/-- The name of a backend in the description of a registry. -/
def label : Backend → String
  | memory => "MemDb"
  | disk => "Sled"

/-- The backend of a name; case matters. -/
def ofName (text : String) : Except StoreError Backend :=
  if text = memory.name then .ok memory
  else if text = disk.name then .ok disk
  else .error (.unknownBackend text)

@[simp] theorem ofName_name (backend : Backend) : ofName backend.name = .ok backend := by
  cases backend <;> rfl

end Backend

end OrderedStore
