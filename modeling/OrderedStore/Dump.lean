import OrderedStore.Store

/-!
# Dumps

The dump of a store is one line of hexadecimal text for each of its entries, in increasing order
of the keys.  It is written line by line into a sink that may have a limit.

* `Sink.write` takes characters up to the limit.
* `Dump.line` is the text of an entry.
* `Store.dump` walks the whole store, and stops at the first line that the sink cannot hold.
* `Dump.read?` reads the lines back.
-/

namespace OrderedStore

/-- A text that is being written. -/
structure Sink where
  /-- The pieces written so far, the latest first. -/
  pieces : List (List Char)
  /-- How many characters can still be taken, if there is a limit. -/
  room : Option Nat
  deriving DecidableEq

namespace Sink

/-- An empty sink without a limit. -/
def unlimited : Sink := ⟨[], none⟩

/-- An empty sink that takes `limit` characters, if a limit is given. -/
def ofLimit (limit : Option Nat) : Sink := ⟨[], limit⟩

/-- The characters that have been written. -/
def written (sink : Sink) : List Char := sink.pieces.reverse.flatten

/-- What has been written, as a text. -/
def text (sink : Sink) : String := String.ofList sink.written

/-- Writes as much of a text as there is room for; fails if that is not all of it. -/
def write (sink : Sink) (text : List Char) : Except StoreError Unit × Sink :=
  match sink.room with
  | none => (.ok (), ⟨text :: sink.pieces, none⟩)
  | some room =>
    let outcome := if text.length ≤ room then .ok () else .error (.backend "sink full")
    (outcome, ⟨text.take room :: sink.pieces, some (room - text.length)⟩)

/-- Goes on with the sink, unless it could not hold what was written. -/
def andThen (written : Except StoreError Unit × Sink)
    (next : Sink → Except StoreError Unit × Sink) : Except StoreError Unit × Sink :=
  match written with
  | (.error error, sink) => (.error error, sink)
  | (.ok (), sink) => next sink

@[simp] theorem written_ofLimit (limit : Option Nat) : (ofLimit limit).written = [] := rfl

theorem written_write_of_none {sink : Sink} {text : List Char} (h : sink.room = none) :
    (sink.write text).2.written = sink.written ++ text := by
  simp [write, h, written]

theorem written_write_of_some {sink : Sink} {text : List Char} {room : Nat}
    (h : sink.room = some room) :
    (sink.write text).2.written = sink.written ++ text.take room := by
  simp [write, h, written]

end Sink

namespace Dump

/-- The line of an entry: key and value in uppercase hexadecimal. -/
def line (entry : Entry) : List Char :=
  ['['] ++ entry.key.hex ++ [']', ':', '\t', '['] ++ entry.value.hex ++ [']', '\n']

/-- The error of a dump whose walk ended with `error`: the text of `error` becomes the words of a
failure. -/
def ofWalkError (error : StoreError) : StoreError := .backend error.message

/-- What is reported when the walk of an iterator has ended and the iterator is closed.  A failure to close
it is reported before the error of the walk. -/
def ending (it : Iterator) : Except StoreError Unit :=
  match it.error? with
  | none => it.close.1
  | some error => it.close.1 >>= fun () => .error (ofWalkError error)

theorem ending_of_eq_none {it : Iterator} (h : it.error? = none) : ending it = .ok () := by
  rw [ending, h, it.fst_close]

theorem ending_of_eq_some {it : Iterator} {error : StoreError} (h : it.error? = some error) :
    ending it = .error (ofWalkError error) := by
  rw [ending, h, it.fst_close]
  rfl

/-- Only the error of the iterator matters. -/
theorem ending_congr {it it' : Iterator} (h : it.error? = it'.error?) : ending it = ending it' := by
  rw [ending, ending, h, it.fst_close, it'.fst_close]

/-- Writes the lines of at most `count` entries of an iterator, then reports the error of the walk
if it ended with one. -/
def writeLines : Nat → Iterator → Sink → Except StoreError Unit × Sink
  | 0, it, sink => (ending it, sink)
  | count + 1, it, sink =>
    match it.entry? with
    | none => (ending it, sink)
    | some entry =>
      Sink.andThen (sink.write (line entry)) fun sink => writeLines count it.advance sink

/-! ### Reading -/

/-- The value of an uppercase hexadecimal digit. -/
def digit? (char : Char) : Option Nat :=
  if '0' ≤ char ∧ char ≤ '9' then some (char.toNat - 48)
  else if 'A' ≤ char ∧ char ≤ 'F' then some (char.toNat - 55)
  else none

/-- The byte of two hexadecimal digits. -/
def byte? (high low : Char) : Option UInt8 := do
  return UInt8.ofNat ((← digit? high) * 16 + (← digit? low))

/-- The bytes up to the closing bracket, and the text behind it. -/
def takeBytes? : List Char → Option (Bytes × List Char)
  | ']' :: rest => some ([], rest)
  | high :: low :: rest =>
    match byte? high low with
    | none => none
    | some byte => (takeBytes? rest).map fun found => (byte :: found.1, found.2)
  | _ => none

/-- The entry of the first line, and the text behind it. -/
def takeLine? : List Char → Option (Entry × List Char)
  | '[' :: rest =>
    match takeBytes? rest with
    | some (key, ':' :: '\t' :: '[' :: rest) =>
      match takeBytes? rest with
      | some (value, '\n' :: rest) => some (⟨key, value⟩, rest)
      | _ => none
    | _ => none
  | _ => none

/-- The entries of at most `count` lines, which have to be the whole text. -/
def takeLines? : Nat → List Char → Option (List Entry)
  | _, [] => some []
  | 0, _ => none
  | count + 1, text =>
    match takeLine? text with
    | none => none
    | some (entry, rest) => (takeLines? count rest).map (entry :: ·)

/-- The entries of a dump; every line takes a character, so the length bounds their number. -/
def read? (text : List Char) : Option (List Entry) := takeLines? text.length text

end Dump

/-- Writes the lines of all entries of a store.  If the walk cannot begin, its error is reported
as it is and nothing is written. -/
def Store.dump {σ : Type} (store : Store σ) (sink : Sink) :
    StateM σ (Except StoreError Unit × Sink) := do
  match ← (store.iterator .ascending .all).attempt with
  | .error error => pure (.error error, sink)
  | .ok it => pure (Dump.writeLines it.remaining it sink)

end OrderedStore
