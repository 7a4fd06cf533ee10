import OrderedStore.Backend

/-!
# Output

A program writes texts of its own and reports events to a log, which is written to the same place.

* `Event` is what is reported about opened stores.
* `Log` says in which words an event is written.
* `Log.render` is the text of all that was written.

The events of batches, transactions and views are not reported when the entries of a store are shown.
They are left out, and so are those that tell of a walk in memory and what the package for disk stores
reports of itself.
-/

namespace OrderedStore

/-- Something that happened, with what is told of it. -/
inductive Event where
  /-- A store is about to be opened. -/
  | openingStore (name : String) (backend : Backend) (dir : String)
  /-- A database is about to be opened at a path. -/
  | openingDatabase (path : String)
  /-- The size of a database on disk could not be read. -/
  | sizeUnknown (text : String)
  /-- One of the statistics of a store. -/
  | stat (name value : String)
  /-- A memory with this number of entries has been closed. -/
  | memoryClosed (size : Nat)
  /-- The engine of a kind is about to be closed. -/
  | closingEngine (kind : String)
  deriving DecidableEq

/-- A piece of what is written. -/
inductive Printed where
  | event (event : Event)
  | text (text : String)
  deriving DecidableEq

/-- How events are written.  The words of an event also tell its time, and none are written for an
event that is not asked for. -/
structure Log where
  /-- The words of the event at a place among all pieces. -/
  words : (place : Nat) → Event → String

namespace Log

/-- Nothing is written for any event. -/
def Silent (log : Log) : Prop := ∀ place event, log.words place event = ""

/-- The text of a piece. -/
def wordsOf (log : Log) (place : Nat) : Printed → String
  | .event event => log.words place event
  | .text text => text

/-- The text of the pieces, the first of which stands at `place`. -/
def render (log : Log) (place : Nat) : List Printed → String
  | [] => ""
  | piece :: pieces => log.wordsOf place piece ++ log.render (place + 1) pieces

/-- The log that asks for no event. -/
def none : Log := ⟨fun _ _ => ""⟩

theorem silent_none : none.Silent := fun _ _ => rfl

end Log

end OrderedStore
