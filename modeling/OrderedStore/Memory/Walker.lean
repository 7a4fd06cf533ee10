import OrderedStore.Memory

/-!
# Walks in threads of their own

The walk behind an iterator of a memory runs in a thread of its own, which hands the entries over through a
channel of bounded size.  To move the iterator, one receives the next entry; to close it, one cancels the
walk, drops the receiving end of the channel and joins the thread.  The thread and the caller act in turn, in
any order, and each waits where it has to.

* `Producer` is where the thread stands, `Phase` how far the caller has come, `Walker` is both with what they
  share.
* `Walker.produce?` is what the thread does next, `Walker.consume?` what the caller does next; neither is there
  while it has to wait.
* `Walker.run?` lets them act in a given order, and calls moving and closing in between.
-/

namespace OrderedStore.Memory

/-- How many entries can wait to be received. -/
def capacity : Nat := 64

/-- Where the thread of a walk stands. -/
inductive Producer where
  /-- The visitor is still to be shown these entries, and to skip a key. -/
  | walking (skip : Option Bytes) (rest : List Entry)
  /-- The visitor is to look whether the walk has been cancelled, before an entry is handed over. -/
  | looking (skip : Option Bytes) (entry : Entry) (rest : List Entry)
  | sending (skip : Option Bytes) (entry : Entry) (rest : List Entry)
  | finished
  | panicked

/-- The thread has come to an end, and the sending end of its channel is gone. -/
def Producer.hasEnded : Producer → Bool
  | finished => true
  | panicked => true
  | _ => false

/-- How far the last call has come: making the iterator, moving it or closing it. -/
inductive Phase where
  | returned (outcome : Except StoreError Unit)
  /-- The next entry is to be received. -/
  | receiving
  | cancelling
  /-- The receiving end of the channel is to be dropped. -/
  | dropping
  | joining

/-- An iterator of a memory and the thread of its walk. -/
structure Walker where
  bounds : Bounds
  /-- The key below which the visitor ends the walk. -/
  lowest : Option Bytes
  producer : Producer
  /-- The entries that wait to be received; `none` if the receiving end of the channel is gone. -/
  waiting : Option (List Entry)
  cancelled : Bool
  /-- The entry on which the iterator stands. -/
  current : Option Entry
  /-- The thread is still to be joined. -/
  joinable : Bool
  phase : Phase

namespace Walker

/-- The entries that a walk over a range meets, if its visitor asks for all of them. -/
def met (map : OrderedMap) (direction : Direction) (bounds : Bounds) : List Entry :=
  ((walkBy map direction bounds (gather none)).run ⟨none, []⟩).2.seen.reverse

/-- A thread begins a walk, and the first entry is to be received. -/
def start (map : OrderedMap) (direction : Direction) (bounds : Bounds) : Walker where
  bounds := bounds
  lowest := late bounds.lower direction
  producer := .walking (late bounds.upper direction) (met map direction bounds)
  waiting := some []
  cancelled := false
  current := none
  joinable := true
  phase := .receiving

/-! ### The thread -/

/-- Shows the visitor the next entry, up to where it would hand the entry over. -/
def visit (lowest skip : Option Bytes) (entry : Entry) (rest : List Entry) : Producer :=
  if skip = some entry.key then .walking none rest
  else if isBelow lowest entry.key then .finished
  else .looking skip entry rest

/-- What the thread does next.  It waits while the channel is full, and ends when it cannot send. -/
def produce? (walker : Walker) : Option Walker :=
  match walker.producer with
  | .walking _ [] => some { walker with producer := .finished }
  | .walking skip (entry :: rest) =>
    some { walker with producer := visit walker.lowest skip entry rest }
  | .looking skip entry rest =>
    some { walker with producer := if walker.cancelled then .finished else .sending skip entry rest }
  | .sending skip entry rest =>
    match walker.waiting with
    | none => some { walker with producer := .finished }
    | some waiting =>
      if waiting.length < capacity then
        some { walker with
          producer := .walking skip rest
          waiting := some (waiting ++ [entry]) }
      else none
  | .finished => none
  | .panicked => none

/-! ### The caller -/

/-- The iterator has received what it stands on from now on. -/
def receive (current : Option Entry) (walker : Walker) : Walker :=
  { walker with current, phase := .returned (.ok ()) }

/-- What the caller does next.  It waits while nothing can be received, and for the end of the thread. -/
def consume? (walker : Walker) : Option Walker :=
  match walker.phase with
  | .returned _ => none
  | .receiving =>
    match walker.waiting with
    | none => some (walker.receive none)
    | some (entry :: waiting) => some { walker.receive (some entry) with waiting := some waiting }
    | some [] => if walker.producer.hasEnded then some (walker.receive none) else none
  | .cancelling => some { walker with cancelled := true, phase := .dropping }
  | .dropping => some { walker with waiting := none, phase := .joining }
  | .joining =>
    match walker.producer with
    | .finished => some { walker with phase := .returned (.ok ()) }
    | .panicked => some { walker with phase := .returned (.error .walkAborted) }
    | _ => none

/-! ### Calls -/

/-- Moves the iterator; refused if it is invalid. -/
def next? (walker : Walker) : Option Walker :=
  if walker.current.isSome then some { walker with phase := .receiving } else none

/-- Closes the iterator.  There is nothing to do if the thread has been joined. -/
def close (walker : Walker) : Walker :=
  { walker with
    current := none
    joinable := false
    phase := if walker.joinable then .cancelling else .returned (.ok ()) }

/-- What can happen to an iterator and its thread. -/
inductive Event where
  | produce
  | consume
  | next
  | close
  deriving DecidableEq

/-- What an event makes of them, if it can happen.  Calls come one after the other, and a refused one changes
nothing. -/
def act? (walker : Walker) : Event → Option Walker
  | .produce => walker.produce?
  | .consume => walker.consume?
  | .next =>
    match walker.phase with
    | .returned _ => some (walker.next?.getD walker)
    | _ => none
  | .close =>
    match walker.phase with
    | .returned _ => some walker.close
    | _ => none

/-- What events in order make of them. -/
def run? (walker : Walker) : List Event → Option Walker
  | [] => some walker
  | event :: events => (walker.act? event).bind fun walker => walker.run? events

end Walker

end OrderedStore.Memory
