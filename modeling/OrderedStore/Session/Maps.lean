import OrderedStore.OrderedMap

/-!
# Sessions on ordered maps

Steps on a growing list of maps, the first of which starts empty.  A clone is a new map that begins
with the entries of the old one; both go their own ways afterwards.
-/

namespace OrderedStore

/-- A walk through a map. -/
inductive MapWalk where
  | ascend
  | ascendFrom (pivot : Bytes)
  | ascendRange (lower upper : Bytes)
  | descend
  | descendFrom (pivot : Bytes)
  deriving DecidableEq

/-- What can be asked of a map. -/
inductive MapRequest where
  | insert (entry : Entry)
  | insertAll (entries : List Entry)
  | remove (key : Bytes)
  | removeAll (keys : List Bytes)
  | get (key : Bytes)
  | contains (key : Bytes)
  | size
  | clone
  /-- Shows entries until the walk ends, or `stopAfter` of them have been shown. -/
  | walk (walk : MapWalk) (stopAfter : Option Nat)
  | render
  deriving DecidableEq

/-- What a map answers. -/
inductive MapAnswer where
  | value (value : Option Bytes)
  | values (values : List (Option Bytes))
  | flag (value : Bool)
  | size (size : Nat) (isEmpty : Bool)
  | made (number : Nat)
  | entries (entries : List Entry)
  | text (text : String)
  deriving DecidableEq

namespace OrderedMap

/-- Stores entries in turn and answers the values that they replaced. -/
def insertAll (map : OrderedMap) (entries : List Entry) : OrderedMap × List (Option Bytes) :=
  let (replaced, map) := (entries.mapM fun entry => modifyGet fun map : OrderedMap =>
    let (map, replaced) := map.insert entry
    (replaced, map) : StateM OrderedMap (List (Option Bytes))).run map
  (map, replaced)

/-- Removes keys in turn and answers the values that were removed. -/
def removeAll (map : OrderedMap) (keys : List Bytes) : OrderedMap × List (Option Bytes) :=
  let (removed, map) := (keys.mapM fun key => modifyGet fun map : OrderedMap =>
    let (map, removed) := map.remove key
    (removed, map) : StateM OrderedMap (List (Option Bytes))).run map
  (map, removed)

/-- A visitor that keeps the entries it is shown and asks to stop once it has `stopAfter`. -/
def keep (stopAfter : Option Nat) (entry : Entry) : StateM (List Entry) Bool :=
  modifyGet fun seen =>
    let seen := seen ++ [entry]
    (stopAfter.all fun count => decide (seen.length < count), seen)

/-- Shows the entries on the way of a walk until the visitor asks to stop. -/
def follow {m : Type → Type} [Monad m] (map : OrderedMap) (visit : Entry → m Bool) :
    MapWalk → m Unit
  | .ascend => map.ascend visit
  | .ascendFrom pivot => map.ascendFrom pivot visit
  | .ascendRange lower upper => map.ascendRange lower upper visit
  | .descend => map.descend visit
  | .descendFrom pivot => map.descendFrom pivot visit

/-- The entries that a walk shows. -/
def walked (map : OrderedMap) (walk : MapWalk) (stopAfter : Option Nat) : List Entry :=
  ((map.follow (keep stopAfter) walk).run []).2

/-- The map after a request, and its answer; `number` is that of the next map. -/
def answer (map : OrderedMap) (number : Nat) : MapRequest → OrderedMap × MapAnswer
  | .insert entry =>
    let (map, replaced) := map.insert entry
    (map, .value replaced)
  | .insertAll entries =>
    let (map, replaced) := map.insertAll entries
    (map, .values replaced)
  | .remove key =>
    let (map, removed) := map.remove key
    (map, .value removed)
  | .removeAll keys =>
    let (map, removed) := map.removeAll keys
    (map, .values removed)
  | .get key => (map, .value (map.get? key))
  | .contains key => (map, .flag (map.contains key))
  | .size => (map, .size map.size map.isEmpty)
  | .clone => (map, .made number)
  | .walk walk stopAfter => (map, .entries (map.walked walk stopAfter))
  | .render => (map, .text map.render)

end OrderedMap

/-- The maps that a request adds to the list, once it has been answered. -/
def MapRequest.added {μ : Type} (map : μ) : MapRequest → List μ
  | .clone => [map]
  | _ => []

/-- The answers of requests to the maps with the given numbers; a request to a map that is not
there has none.  `answer` says what becomes of a map, and is given the number of the next one. -/
def MapRequest.run {μ : Type} (answer : μ → Nat → MapRequest → μ × MapAnswer) (maps : List μ) :
    List (Nat × MapRequest) → List (Option MapAnswer)
  | [] => []
  | (number, request) :: rest =>
    match maps[number]? with
    | none => none :: run answer maps rest
    | some map =>
      let (map, given) := answer map maps.length request
      some given :: run answer (maps.set number map ++ request.added map) rest

/-- The answers of requests that begin with one empty map. -/
def MapRequest.answers (requests : List (Nat × MapRequest)) : List (Option MapAnswer) :=
  run OrderedMap.answer [.empty] requests

end OrderedStore
