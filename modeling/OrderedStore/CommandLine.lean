import OrderedStore.Dump
import OrderedStore.Engine.Disks
import OrderedStore.View
import OrderedStore.World

/-!
# The command line

Shows the entries of a store: `<backend> <dir> [name] [prefix]` opens the store of a name in a
directory, reports its statistics and writes its dump, restricted to the keys that begin with the
prefix if one is given.

* `CommandLine.Packages` are the packages that the program uses: for disk stores, for what it
  reports, and for its errors.
* `CommandLine.parse` reads the arguments; an unknown backend is reported before anything that is
  missing or too much.
* `CommandLine.run` opens the store, writes the dump and closes the store.
* `CommandLine.Packages.plain` are packages with which the program can be run.
-/

namespace OrderedStore

/-- The messages of an error and of the errors that are its sources, from the outermost one. -/
def StoreError.messages (error : StoreError) : List String :=
  error.message ::
    match error with
    | rolledBack _ source => source.messages
    | rollbackFailed _ _ source => source.messages
    | backend text => [text]
    | _ => []

/-- The statistics in the order of their names. -/
def Stats.byName (stats : Stats) : Stats := stats.mergeSort fun a b => decide (a.1 ≤ b.1)

namespace CommandLine

/-! ### Arguments -/

/-- The store to be shown, and the text with which the shown keys begin. -/
structure Invocation where
  config : Config
  stem : Option String
  deriving DecidableEq

/-- Why nothing, or not everything, is shown. -/
inductive Failure where
  /-- Arguments are missing, or there are too many. -/
  | usage
  /-- The backend is unknown. -/
  | backend (error : StoreError)
  /-- The store of a name cannot be opened. -/
  | opening (name : String) (error : StoreError)
  | dumping (error : StoreError)
  | closing (error : StoreError)
  deriving DecidableEq

/-- The messages of a failure, from the outermost one. -/
def Failure.messages : Failure → List String
  | usage => ["usage: kvdb-node <backend> <dir> [name] [prefix]"]
  | backend error => error.messages
  | opening name error => ("failed to open store `" ++ name ++ "`") :: error.messages
  | dumping error => "failed to dump the store" :: error.messages
  | closing error => error.messages

/-- Reads what follows the backend. -/
def parseRest (backend : Backend) : List String → Except Failure Invocation
  | [dir] => .ok ⟨⟨Config.default.name, backend, dir⟩, none⟩
  | [dir, name] => .ok ⟨⟨name, backend, dir⟩, none⟩
  | [dir, name, stem] => .ok ⟨⟨name, backend, dir⟩, some stem⟩
  | _ => .error .usage

/-- Reads the arguments. -/
def parse : List String → Except Failure Invocation
  | [] => .error .usage
  | name :: rest =>
    match Backend.ofName name with
    | .error error => .error (.backend error)
    | .ok backend => parseRest backend rest

/-! ### Showing a store -/

/-- What the program takes from the packages that it uses. -/
structure Packages (φ : Type) where
  sled : Sled φ
  log : Log
  /-- The text of an error with the given messages, from the outermost one. -/
  describe : List String → String

/-- How a run ends: its exit code and what it writes. -/
structure Exit where
  code : Nat
  out : String
  err : String
  deriving DecidableEq

variable {φ : Type}

/-- The end of a run that has written the pieces. -/
def Packages.exit (packages : Packages φ) (printed : List Printed) : Except Failure Unit → Exit
  | .ok () => ⟨0, packages.log.render 0 printed, ""⟩
  | .error failure =>
    ⟨1, packages.log.render 0 printed, "Error: " ++ packages.describe failure.messages ++ "\n"⟩

/-- The store that an invocation shows. -/
def Invocation.shown (invocation : Invocation) (store : Store (World φ)) : Store (World φ) :=
  match invocation.stem with
  | none => store
  | some stem => store.view (.ofString stem)

/-- What is reported about the statistics of the shown store, which are those of an opened one. -/
def Invocation.statsEvents (invocation : Invocation) (sled : Sled φ) (root : Root)
    (world : World φ) : List Event :=
  World.statsEvents sled root world ++
    ((invocation.shown (World.store sled root)).stats world).byName.map fun stat =>
      .stat stat.1 stat.2

/-- Reports the statistics of an opened store, writes the dump of what an invocation shows of it, and
closes it.  A failure to close is reported before one to write. -/
def displayStore (sled : Sled φ) (root : Root) (invocation : Invocation) :
    StateM (World φ) (Except Failure Unit) := do
  World.reportAll (invocation.statsEvents sled root (← get))
  let (dumped, sink) ← (invocation.shown (World.store sled root)).dump .unlimited
  World.print (.text sink.text)
  match ← (World.store sled root).close.attempt with
  | .error error => return .error (.closing error)
  | .ok () => return dumped.mapError .dumping

/-- Opens the store of an invocation and shows it. -/
def display (sled : Sled φ) (registry : Registry (Creator φ)) (invocation : Invocation) :
    StateM (World φ) (Except Failure Unit) := do
  match ← (registry.openStore invocation.config).attempt with
  | .error error => return .error (.opening invocation.config.name error)
  | .ok root => displayStore sled root invocation

/-- A run with the given arguments, from what is kept on disk to what is kept there afterwards. -/
def run (packages : Packages φ) (args : List String) : StateM φ Exit :=
  match parse args with
  | .error failure => return packages.exit [] (.error failure)
  | .ok invocation => do
    let (outcome, printed) ←
      World.onDisks (display packages.sled (.standard packages.sled) invocation)
    return packages.exit printed outcome

/-! ### Plain packages -/

/-- The numbered causes of an error. -/
def listCauses (place : Nat) : List String → String
  | [] => ""
  | cause :: causes => "\n    " ++ toString place ++ ": " ++ cause ++ listCauses (place + 1) causes

/-- The text of an error: its message, and its causes below. -/
def describeCauses : List String → String
  | [] => ""
  | [message] => message
  | [message, cause] => message ++ "\n\nCaused by:\n    " ++ cause
  | message :: causes => message ++ "\n\nCaused by:" ++ listCauses 0 causes

/-- Databases over sorted contents, no log, and errors with their causes. -/
def Packages.plain : Packages Disks := ⟨Disks.sled, .none, describeCauses⟩

end CommandLine

end OrderedStore
