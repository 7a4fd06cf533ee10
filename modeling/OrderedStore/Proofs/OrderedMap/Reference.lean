import OrderedStore.Proofs.OrderedMap.Contents
import OrderedStore.Proofs.Pointwise
import OrderedStore.Proofs.Tree.Walk
import OrderedStore.Session.Maps

/-!
# Ordered maps answer as sorted contents do

Sorted contents are the plainest map: a list of entries with increasing keys.  They answer the
requests to a map by looking a key up, putting an entry in its place, leaving one out and reading
the list.  Ordered maps answer every list of requests as they do.

* `Contents.answer` is the reference, and `Contents.shown` what it shows in a walk.
* `OrderedMap.Holds.answer` compares one request, `MapRequest.run_eq_of_forall₂` whole runs.
* `MapRequest.answers_eq_reference` begins with the empty map.
-/

namespace OrderedStore

/-! ### The reference -/

namespace Contents

/-- The entries on the way of a walk, in its order. -/
def onWay (contents : Contents) : MapWalk → List Entry
  | .ascend => contents.entries
  | .ascendFrom pivot => contents.entries.filter fun e => decide (pivot ≤ e.key)
  | .ascendRange lower upper =>
    contents.entries.filter fun e => decide (lower ≤ e.key) && decide (e.key < upper)
  | .descend => contents.entries.reverse
  | .descendFrom pivot => (contents.entries.filter fun e => decide (e.key ≤ pivot)).reverse

/-- The entries that are shown to a visitor that stops once it has `stopAfter`.  It is asked only
after an entry, so the first one is always shown. -/
def shown (contents : Contents) (walk : MapWalk) : Option Nat → List Entry
  | none => contents.onWay walk
  | some stopAfter => (contents.onWay walk).take (max 1 stopAfter)

/-- Stores entries in turn and answers the values that they replaced. -/
def insertAll (contents : Contents) : List Entry → Contents × List (Option Bytes)
  | [] => (contents, [])
  | entry :: entries =>
    let (after, replaced) := (contents.insert entry).insertAll entries
    (after, contents.get? entry.key :: replaced)

/-- Removes keys in turn and answers the values that were removed. -/
def eraseAll (contents : Contents) : List Bytes → Contents × List (Option Bytes)
  | [] => (contents, [])
  | key :: keys =>
    let (after, removed) := (contents.erase key).eraseAll keys
    (after, contents.get? key :: removed)

/-- The contents after a request, and their answer.  Contents have no shape that could be written,
so they have nothing to answer to `render`. -/
def answer (contents : Contents) (number : Nat) : MapRequest → Contents × MapAnswer
  | .insert entry => (contents.insert entry, .value (contents.get? entry.key))
  | .insertAll entries =>
    let (after, replaced) := contents.insertAll entries
    (after, .values replaced)
  | .remove key => (contents.erase key, .value (contents.get? key))
  | .removeAll keys =>
    let (after, removed) := contents.eraseAll keys
    (after, .values removed)
  | .get key => (contents, .value (contents.get? key))
  | .contains key => (contents, .flag (contents.get? key).isSome)
  | .size => (contents, .size contents.size (contents.size == 0))
  | .clone => (contents, .made number)
  | .walk walk stopAfter => (contents, .entries (contents.shown walk stopAfter))
  | .render => (contents, .text "")

end Contents

/-! ### One request -/

namespace OrderedMap

theorem run_keep (stopAfter : Option Nat) (entry : Entry) (seen : List Entry) :
    (keep stopAfter entry).run seen =
      (stopAfter.all fun count => decide ((seen ++ [entry]).length < count), seen ++ [entry]) := rfl

/-- A visitor that never stops keeps all entries on its way. -/
theorem visitAll_keep_none (entries seen : List Entry) :
    ((Tree.visitAll (keep none) entries).run seen).2 = seen ++ entries := by
  induction entries generalizing seen with
  | nil => exact (List.append_nil seen).symm
  | cons entry entries ih =>
    rw [Tree.run_visitAll_cons, run_keep, if_pos (by rfl), ih, List.append_assoc,
      List.singleton_append]

/-- A visitor with a limit keeps the first entry, and more as long as it is below its limit. -/
theorem visitAll_keep_some (count : Nat) (entries seen : List Entry) :
    ((Tree.visitAll (keep (some count)) entries).run seen).2 =
      seen ++ entries.take (max 1 (count - seen.length)) := by
  induction entries generalizing seen with
  | nil => rw [Tree.run_visitAll_nil, List.take_nil, List.append_nil]
  | cons entry entries ih =>
    rw [Tree.run_visitAll_cons, run_keep]
    by_cases hmore : (seen ++ [entry]).length < count
    · have hlength : max 1 (count - seen.length) =
          max 1 (count - (seen ++ [entry]).length) + 1 := by
        rw [List.length_append, List.length_singleton] at hmore ⊢
        omega
      rw [if_pos (by simpa using hmore), ih, hlength, List.take_succ_cons, List.append_assoc,
        List.singleton_append]
    · have hlength : max 1 (count - seen.length) = 1 := by
        rw [List.length_append, List.length_singleton] at hmore
        omega
      rw [if_neg (by simpa using hmore), hlength, List.take_succ_cons, List.take_zero]

variable {map : OrderedMap} {contents : Contents}

/-- A walk with any visitor goes along the list of the entries on its way. -/
theorem Holds.follow_eq {m : Type → Type} [Monad m] [LawfulMonad m] (hc : map.Holds contents)
    (visit : Entry → m Bool) (walk : MapWalk) :
    map.follow visit walk = discard (Tree.visitAll visit (contents.onWay walk)) := by
  have ho := hc.wellFormed.ordered
  have hentries : map.root.toList = contents.entries := hc.toList_eq
  cases walk with
  | ascend =>
    rw [follow, ascend, Tree.discard_ascend _ _ ho, hentries]
    simp [Contents.onWay]
  | ascendFrom pivot =>
    rw [follow, ascendFrom, Tree.discard_ascend _ _ ho, hentries]
    simp [Contents.onWay, Bounds.contains, Bounds.lowerAdmits, Bounds.upperAdmits]
  | ascendRange lower upper =>
    rw [follow, ascendRange, Tree.discard_ascend _ _ ho, hentries]
    simp [Contents.onWay, Bounds.contains, Bounds.lowerAdmits, Bounds.upperAdmits]
  | descend =>
    rw [follow, descend, Tree.descend_eq _ _ ho, hentries]
    simp [Contents.onWay, Tree.upTo]
  | descendFrom pivot =>
    rw [follow, descendFrom, Tree.descend_eq _ _ ho, hentries]
    simp [Contents.onWay, Tree.upTo]

/-- A walk shows what it shows on the contents. -/
theorem Holds.walked_eq (hc : map.Holds contents) (walk : MapWalk) (stopAfter : Option Nat) :
    map.walked walk stopAfter = contents.shown walk stopAfter := by
  rw [walked, hc.follow_eq]
  show ((Tree.visitAll (keep stopAfter) (contents.onWay walk)).run []).2 = _
  cases stopAfter with
  | none => rw [visitAll_keep_none, List.nil_append, Contents.shown]
  | some count =>
    rw [visitAll_keep_some, List.nil_append, List.length_nil, Nat.sub_zero, Contents.shown]

theorem insertAll_cons (map : OrderedMap) (entry : Entry) (entries : List Entry) :
    map.insertAll (entry :: entries) =
      (((map.insert entry).1.insertAll entries).1,
        (map.insert entry).2 :: ((map.insert entry).1.insertAll entries).2) := by
  simp only [insertAll, List.mapM_cons, StateT.run_bind]
  rfl

theorem removeAll_cons (map : OrderedMap) (key : Bytes) (keys : List Bytes) :
    map.removeAll (key :: keys) =
      (((map.remove key).1.removeAll keys).1,
        (map.remove key).2 :: ((map.remove key).1.removeAll keys).2) := by
  simp only [removeAll, List.mapM_cons, StateT.run_bind]
  rfl

theorem Holds.insertAll (hc : map.Holds contents) (entries : List Entry) :
    (map.insertAll entries).2 = (contents.insertAll entries).2 ∧
      (map.insertAll entries).1.Holds (contents.insertAll entries).1 := by
  induction entries generalizing map contents with
  | nil => exact ⟨rfl, hc⟩
  | cons entry entries ih =>
    obtain ⟨hanswers, hafter⟩ := ih (hc.insert entry)
    rw [insertAll_cons, insert_snd, hc.get?_eq, hanswers]
    exact ⟨rfl, hafter⟩

theorem Holds.removeAll (hc : map.Holds contents) (keys : List Bytes) :
    (map.removeAll keys).2 = (contents.eraseAll keys).2 ∧
      (map.removeAll keys).1.Holds (contents.eraseAll keys).1 := by
  induction keys generalizing map contents with
  | nil => exact ⟨rfl, hc⟩
  | cons key keys ih =>
    obtain ⟨hanswers, hafter⟩ := ih (hc.remove key)
    rw [removeAll_cons, remove_snd, hc.get?_eq, hanswers]
    exact ⟨rfl, hafter⟩

/-- A map and its contents answer a request alike, and go on alike. -/
theorem Holds.answer (hc : map.Holds contents) (number : Nat) {request : MapRequest}
    (hr : request ≠ .render) :
    (map.answer number request).2 = (contents.answer number request).2 ∧
      (map.answer number request).1.Holds (contents.answer number request).1 := by
  cases request with
  | insert entry =>
    refine ⟨?_, hc.insert entry⟩
    show MapAnswer.value (map.insert entry).2 = .value (contents.get? entry.key)
    rw [insert_snd, hc.get?_eq]
  | insertAll entries =>
    obtain ⟨hanswers, hafter⟩ := hc.insertAll entries
    exact ⟨congrArg MapAnswer.values hanswers, hafter⟩
  | remove key =>
    refine ⟨?_, hc.remove key⟩
    show MapAnswer.value (map.remove key).2 = .value (contents.get? key)
    rw [remove_snd, hc.get?_eq]
  | removeAll keys =>
    obtain ⟨hanswers, hafter⟩ := hc.removeAll keys
    exact ⟨congrArg MapAnswer.values hanswers, hafter⟩
  | get key => exact ⟨congrArg MapAnswer.value (hc.get?_eq key), hc⟩
  | contains key =>
    refine ⟨?_, hc⟩
    show MapAnswer.flag (map.get? key).isSome = .flag (contents.get? key).isSome
    rw [hc.get?_eq]
  | size =>
    refine ⟨?_, hc⟩
    show MapAnswer.size map.size (map.size == 0) = .size contents.size (contents.size == 0)
    rw [hc.size_eq]
  | clone => exact ⟨rfl, hc⟩
  | walk walk stopAfter => exact ⟨congrArg MapAnswer.entries (hc.walked_eq walk stopAfter), hc⟩
  | render => exact absurd rfl hr

end OrderedMap

/-! ### Runs -/

namespace MapRequest

section

variable {μ : Type} (step : μ → Nat → MapRequest → μ × MapAnswer) {maps : List μ} {number : Nat}

theorem run_cons_of_eq_none (h : maps[number]? = none) (request : MapRequest)
    (rest : List (Nat × MapRequest)) :
    run step maps ((number, request) :: rest) = none :: run step maps rest := by
  rw [run, h]

theorem run_cons_of_eq_some {map : μ} (h : maps[number]? = some map) (request : MapRequest)
    (rest : List (Nat × MapRequest)) :
    run step maps ((number, request) :: rest) =
      some (step map maps.length request).2 ::
        run step (maps.set number (step map maps.length request).1 ++
          request.added (step map maps.length request).1) rest := by
  rw [run, h]

end

theorem forall₂_added {map : OrderedMap} {contents : Contents} (hc : map.Holds contents)
    (request : MapRequest) :
    List.Forall₂ OrderedMap.Holds (request.added map) (request.added contents) := by
  cases request with
  | clone => exact .cons hc .nil
  | _ => exact .nil

/-- Maps that stand for the contents beside them answer all requests as these do. -/
theorem run_eq_of_forall₂ {maps : List OrderedMap} {reference : List Contents}
    (h : List.Forall₂ OrderedMap.Holds maps reference) {requests : List (Nat × MapRequest)}
    (hr : ∀ request ∈ requests, request.2 ≠ .render) :
    run OrderedMap.answer maps requests = run Contents.answer reference requests := by
  induction requests generalizing maps reference with
  | nil => rfl
  | cons request requests ih =>
    obtain ⟨number, request⟩ := request
    obtain ⟨hrequest, hrest⟩ := List.forall_mem_cons.1 hr
    -- Either neither list has a map with this number, or both do.
    obtain ⟨hmap, hcontents⟩ | ⟨map, contents, hmap, hcontents, hc⟩ := forall₂_getElem? h number
    · rw [run_cons_of_eq_none _ hmap, run_cons_of_eq_none _ hcontents, ih h hrest]
    · obtain ⟨hanswer, hafter⟩ := hc.answer maps.length hrequest
      have hmaps := List.rel_append (forall₂_set h number hafter) (forall₂_added hafter request)
      rw [run_cons_of_eq_some _ hmap, run_cons_of_eq_some _ hcontents, ← h.length_eq, hanswer,
        ih hmaps hrest]

/-- **An ordered map refines sorted contents**: whatever is inserted, removed, read, counted,
cloned and walked through, every answer is that of the sorted list of entries. -/
theorem answers_eq_reference (requests : List (Nat × MapRequest))
    (hr : ∀ request ∈ requests, request.2 ≠ .render) :
    answers requests = run Contents.answer [.empty] requests :=
  run_eq_of_forall₂ (.cons OrderedMap.holds_empty .nil) hr

/-- The root has two children when its key is removed and its successor takes its place; the copy
made before keeps the old value. -/
theorem answers_eq_reference_successor :
    answers [(0, .insertAll [⟨[2], [7]⟩, ⟨[], [5]⟩, ⟨[3], []⟩]), (0, .clone), (0, .remove [2]),
        (0, .insert ⟨[3], [9]⟩), (0, .get [2]), (1, .get [2]), (0, .size), (0, .walk .ascend none)] =
      [some (.values [none, none, none]), some (.made 1), some (.value (some [7])),
        some (.value (some [])), some (.value none), some (.value (some [7])),
        some (.size 2 false), some (.entries [⟨[], [5]⟩, ⟨[3], [9]⟩])] := by
  rw [answers_eq_reference _ (by decide)]
  decide

end MapRequest

end OrderedStore
