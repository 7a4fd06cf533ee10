import OrderedStore.Backend
import OrderedStore.Json.Codec
import OrderedStore.Path

/-!
# Store configurations

Which store is to be opened, and how this is declared for the codec that reads and writes it: as a
record of the name, the backend by its name, and the directory.

* `Config.fields` is the declaration, `Config.default` what is missing.
* `Config.render` writes a configuration, `Config.read?` reads a text.
-/

namespace OrderedStore

/-- A store to be opened: its name, its backend and the directory in which it is kept. -/
structure Config where
  name : String
  backend : Backend
  dir : String
  deriving DecidableEq

/-- The backends by their names. -/
def Backend.named : List (String × Backend) := all.map fun backend => (backend.name, backend)

namespace Config

/-- The store that is opened if nothing else is said. -/
def default : Config := ⟨"kvdb", .memory, "data"⟩

instance : Inhabited Config := ⟨default⟩

/-- Whether a configuration names the default store; directories are compared component by
component. -/
def isDefault (config : Config) : Bool :=
  config.name = default.name && config.backend = default.backend &&
    Path.components config.dir = Path.components default.dir

variable (codec : Json.Codec)

def nameField : Json.Field Config where
  name := "name"
  read json := (codec.readText json).map fun name config => { config with name }

def backendField : Json.Field Config where
  name := "backend"
  read json := (codec.readName Backend.named json).map fun backend config => { config with backend }

def dirField : Json.Field Config where
  name := "dir"
  read json := (codec.readText json).map fun dir config => { config with dir }

/-- The fields of a configuration. -/
def fields : List (Json.Field Config) := [nameField codec, backendField codec, dirField codec]

/-- The text of a configuration. -/
def render (config : Config) : List Char :=
  codec.writeRecord
    [((nameField codec).name, codec.writeText config.name),
      ((backendField codec).name, codec.writeName config.backend.name),
      ((dirField codec).name, codec.writeText config.dir)]

/-- The configuration that a text describes. -/
def read? (text : String) : Option Config :=
  codec.readFrom (codec.readRecord default (fields codec)) text

end Config

end OrderedStore
