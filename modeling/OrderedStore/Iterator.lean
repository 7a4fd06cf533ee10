import OrderedStore.WriteQueue

/-!
# Iterators

An iterator stands on an entry of a range or is invalid, and moves in one direction.  Once it is
invalid it stays so.  There are three kinds:

* `snapshot` holds the entries of the range as they were when it was made;
* `cursor` draws items from an engine, checks each of them against the bounds, and keeps the error
  that ended it;
* `view` shows the entries of another iterator without the stem of their keys, and is invalid as
  soon as that iterator is, or stands on a key without the stem.

Moving, and reading the key or the value, are refused when the iterator is invalid.
-/

namespace OrderedStore

/-- What an engine yields for one step of a walk: an entry or the error that stands in its place. -/
abbrev Item := Except StoreError Entry

/-- A position in a range of a store. -/
inductive Iterator where
  /-- The entries that are still to be shown; the iterator stands on the first of them. -/
  | snapshot (bounds : Bounds) (rest : List Entry)
  /-- The entry it stands on, the items behind it, and the error that ended the walk. -/
  | cursor (bounds : Bounds) (current : Option Entry) (rest : List Item)
      (failure : Option StoreError)
  /-- The iterator of the source that is shown under a stem. -/
  | view (stem : Bytes) (bounds : Bounds) (source : Iterator)

namespace Iterator

/-! ### Reading -/

/-- The entry on which the iterator stands; `none` if it is invalid. -/
def entry? : Iterator → Option Entry
  | snapshot _ rest => rest.head?
  | cursor _ current _ _ => current
  | view stem _ source => source.entry?.bind (Entry.strip? stem)

/-- Whether the iterator stands on an entry. -/
def valid (it : Iterator) : Bool := it.entry?.isSome

/-- The key of the entry on which the iterator stands. -/
def key? (it : Iterator) : Option Bytes := it.entry?.map Entry.key

/-- The value of the entry on which the iterator stands. -/
def value? (it : Iterator) : Option Bytes := it.entry?.map Entry.value

/-- The bounds with which the iterator was made. -/
def bounds : Iterator → Bounds
  | snapshot bounds _ => bounds
  | cursor bounds _ _ _ => bounds
  | view _ bounds _ => bounds

/-- The error that ended the walk, if one did. -/
def error? : Iterator → Option StoreError
  | snapshot _ _ => none
  | cursor _ _ _ failure => failure
  | view _ _ source => source.error?

/-! ### Moving -/

/-- Draws the next item of a cursor.  An error, an entry outside the bounds and the end of the
items leave the iterator invalid and drop the items behind. -/
def draw (bounds : Bounds) (failure : Option StoreError) : List Item → Iterator
  | .ok entry :: rest =>
    if bounds.contains entry.key then cursor bounds (some entry) rest failure
    else cursor bounds none [] failure
  | .error error :: _ => cursor bounds none [] (some error)
  | [] => cursor bounds none [] failure

/-- The iterator over the items of an engine, standing on the first of them. -/
def ofItems (bounds : Bounds) (items : List Item) : Iterator := draw bounds none items

/-- The iterator behind the entry on which this one stands. -/
def advance : Iterator → Iterator
  | snapshot bounds rest => snapshot bounds rest.tail
  | cursor bounds _ rest failure => draw bounds failure rest
  | view stem bounds source => view stem bounds source.advance

/-- Moves to the next entry; refused if the iterator is invalid. -/
def next? (it : Iterator) : Option Iterator := if it.valid then some it.advance else none

/-- Releases what the iterator holds, and reports whether this could be done.  The iterator is invalid from
then on and keeps its error. -/
def close : Iterator → Except StoreError Unit × Iterator
  | snapshot bounds _ => (.ok (), snapshot bounds [])
  | cursor bounds _ _ failure => (.ok (), cursor bounds none [] failure)
  | view stem bounds source => (source.close.1, view stem bounds source.close.2)

/-! ### Draining -/

/-- A bound for the number of entries that the iterator can still show. -/
def remaining : Iterator → Nat
  | snapshot _ rest => rest.length
  | cursor _ current rest _ => current.toList.length + rest.length
  | view _ _ source => source.remaining

/-- Reads entries and moves on, while the iterator is valid and fewer than `count` are read. -/
def drain : Nat → Iterator → List Entry × Iterator
  | 0, it => ([], it)
  | count + 1, it =>
    match it.entry? with
    | none => ([], it)
    | some entry =>
      let (entries, it) := it.advance.drain count
      (entry :: entries, it)

/-- Reads entries until the iterator is invalid. -/
def drainAll (it : Iterator) : List Entry × Iterator := it.drain it.remaining

@[simp] theorem fst_close (it : Iterator) : it.close.1 = .ok () := by
  induction it with
  | snapshot => rfl
  | cursor => rfl
  | view stem bounds source ih => exact ih

@[simp] theorem entry?_close (it : Iterator) : entry? it.close.2 = none := by
  induction it with
  | snapshot => rfl
  | cursor => rfl
  | view stem bounds source ih => simp [close, entry?, ih]

@[simp] theorem error?_close (it : Iterator) : it.close.2.error? = it.error? := by
  induction it with
  | snapshot => rfl
  | cursor => rfl
  | view stem bounds source ih => simp [close, error?, ih]

@[simp] theorem bounds_close (it : Iterator) : it.close.2.bounds = it.bounds := by
  cases it <;> rfl

theorem remaining_draw_le (bounds : Bounds) (failure : Option StoreError) (items : List Item) :
    (draw bounds failure items).remaining ≤ items.length := by
  unfold draw
  split
  · split <;> simp [remaining]; omega
  · simp [remaining]
  · simp [remaining]

theorem remaining_advance_lt {it : Iterator} (h : it.valid = true) :
    it.advance.remaining < it.remaining := by
  induction it with
  | snapshot bounds rest => cases rest <;> simp_all [valid, entry?, advance, remaining]
  | cursor bounds current rest failure =>
    cases current with
    | none => simp [valid, entry?] at h
    | some entry =>
      have := remaining_draw_le bounds failure rest
      simp only [advance, remaining, Option.toList_some, List.length_singleton]
      omega
  | view stem bounds source ih =>
    refine ih ?_
    cases hs : source.entry? with
    | none => simp [valid, entry?, hs] at h
    | some entry => simp [valid, hs]

end Iterator

end OrderedStore
