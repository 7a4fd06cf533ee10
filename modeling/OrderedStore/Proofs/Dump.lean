import OrderedStore.Proofs.Bytes.Hex
import OrderedStore.Proofs.Dump.Sink
import OrderedStore.Proofs.View.Contents

/-!
# What a dump writes

A dump that is not limited writes the line of every entry that the store shows, in increasing order of
the keys.  The lines can be told apart, and each of them shows the key of its entry between the first
brackets: the dump of the entries under a stem is found in the dump of all of them.

* `Store.Walks.run_dump` says what is written, `Store.Walks.dump_unlimited` without a limit.
* `Dump.restrict` keeps the lines whose keys are written with a given text first, without it.
* `Dump.restrict_lines` compares it with the entries under a stem.
-/

namespace OrderedStore

variable {σ : Type}

/-! ### Walking -/

/-- A store that cannot be told apart from its contents walks them. -/
theorem Store.Alike.walks {store : Store Contents} (h : store.Alike Eq Contents.store)
    (contents : Contents) : store.Walks contents contents := by
  intro direction bounds hbounds
  obtain ⟨hanswer, hafter⟩ := h.iterator direction bounds contents contents rfl
  rw [contents.run_iterator hbounds direction] at hanswer hafter
  rcases hrun : (store.iterator direction bounds).run.run contents with ⟨outcome, after⟩
  rw [hrun] at hanswer hafter
  cases hanswer with
  | @ok it _ hit => exact ⟨it, Prod.ext rfl hafter, hit⟩

/-! ### Writing -/

/-- A dump writes the lines of all entries of the contents as one text, and leaves the state as it is. -/
theorem Store.Walks.run_dump {store : Store σ} {state : σ} {contents : Contents}
    (h : store.Walks state contents) (sink : Sink) :
    ∃ after, (store.dump sink).run state =
        (((sink.write (contents.entries.flatMap Dump.line)).1, after), state) ∧
      after.written = (sink.write (contents.entries.flatMap Dump.line)).2.written := by
  obtain ⟨it, hrun, hit⟩ := h .ascending .all rfl
  have hentries : contents.range .ascending .all = contents.entries := List.filter_eq_self.2 fun _ _ => rfl
  rw [hentries] at hit
  obtain ⟨hshown, hlast⟩ := hit.drainAll
  rw [Iterator.drainAll_snapshot] at hshown
  have hending : Dump.ending it.drainAll.2 = .ok () := by
    refine Dump.ending_of_eq_none ((Iterator.Alike.isBisimulation.error? hlast).trans ?_)
    rw [Iterator.drainAll, Iterator.drain_snapshot]
    rfl
  obtain ⟨houtcome, hwritten⟩ := Dump.writeLines_remaining it sink
  rw [hshown] at houtcome hwritten
  refine ⟨(Dump.writeLines it.remaining it sink).2, (run_dump_of_ok hrun sink).trans ?_, hwritten⟩
  have hbind : (Dump.writeLines it.remaining it sink).1 =
      (sink.write (contents.entries.flatMap Dump.line)).1 := by
    rw [houtcome, hending]
    cases (sink.write (contents.entries.flatMap Dump.line)).1 <;> rfl
  rw [← hbind]

/-- Without a limit, a dump writes the lines of all entries of the contents, and leaves the state as it
is. -/
theorem Store.Walks.dump_unlimited {store : Store σ} {state : σ} {contents : Contents}
    (h : store.Walks state contents) :
    ∃ sink, (store.dump .unlimited).run state = ((.ok (), sink), state) ∧
      sink.text = String.ofList (contents.entries.flatMap Dump.line) := by
  obtain ⟨sink, hrun, hwritten⟩ := h.run_dump .unlimited
  exact ⟨sink, hrun, congrArg String.ofList (hwritten.trans (Sink.written_write_of_none rfl))⟩

/-! ### Reading lines -/

namespace Dump

/-- The line of an entry without its end. -/
def body (entry : Entry) : List Char :=
  '[' :: (entry.key.hex ++ ']' :: ':' :: '\t' :: '[' :: (entry.value.hex ++ [']']))

theorem line_eq (entry : Entry) : line entry = body entry ++ ['\n'] := by
  simp [line, body]

/-- A line does not end before its end. -/
theorem newline_notMem_body (entry : Entry) : '\n' ∉ body entry := by
  simp [body, Bytes.newline_notMem_hex]

/-- A line whose first brackets hold a text that begins with `front`, without `front`. -/
def stripFront? (front : List Char) : List Char → Option (List Char)
  | '[' :: rest =>
    if front.isPrefixOf (rest.takeWhile (· != ']')) then some ('[' :: rest.drop front.length) else none
  | _ => none

/-- The lines of a dump whose keys are written with `front` first, without it. -/
def restrict (front text : List Char) : List Char :=
  ((text.splitOn '\n').filterMap (stripFront? front)).flatMap (· ++ ['\n'])

/-- The first brackets of a line hold the text of the key. -/
theorem takeWhile_key (entry : Entry) (rest : List Char) :
    (entry.key.hex ++ ']' :: rest).takeWhile (· != ']') = entry.key.hex := by
  have hkey : ∀ char ∈ entry.key.hex, (char != ']') = true := fun char hchar => by
    rw [bne_iff_ne]
    rintro rfl
    exact Bytes.bracket_notMem_hex _ hchar
  rw [List.takeWhile_append_of_pos hkey, List.takeWhile_cons_of_neg (by simp), List.append_nil]

/-- A line is kept just if its entry has the stem, and becomes the line of the entry without it. -/
theorem stripFront?_body (stem : Bytes) (entry : Entry) :
    stripFront? stem.hex (body entry) = (entry.strip? stem).map body := by
  rw [body, stripFront?, takeWhile_key]
  cases hstrip : entry.strip? stem with
  | none =>
    have hout := Entry.strip?_eq_none_iff.1 hstrip
    rw [← Bytes.hex_isPrefix_iff, ← List.isPrefixOf_iff_prefix] at hout
    rw [if_neg hout, Option.map_none]
  | some shown =>
    rw [Entry.strip?_eq_some_iff.1 hstrip, Entry.under, Bytes.hex_append,
      if_pos (List.isPrefixOf_iff_prefix.2 (List.prefix_append _ _)), List.append_assoc,
      List.drop_left, Option.map_some]
    rfl

/-- The lines of a dump are read off its text; behind the last one there is nothing. -/
theorem splitOn_lines (entries : List Entry) :
    (entries.flatMap line).splitOn '\n' = entries.map body ++ [[]] := by
  induction entries with
  | nil => rfl
  | cons entry entries ih =>
    have hbody : ∀ char ∈ body entry, (char == '\n') = false := fun char hchar => by
      rw [beq_eq_false_iff_ne]
      rintro rfl
      exact newline_notMem_body entry hchar
    rw [List.flatMap_cons, line_eq, List.append_assoc, List.singleton_append, List.splitOn,
      List.splitOnP_append_cons_of_forall_mem hbody _ (beq_self_eq_true _), ← List.splitOn, ih]
    rfl

/-- The dump of all entries, restricted to a stem, is the dump of the entries under the stem. -/
theorem restrict_lines (stem : Bytes) (entries : List Entry) :
    restrict stem.hex (entries.flatMap line) =
      (entries.filterMap (Entry.strip? stem)).flatMap line := by
  have hkept : (entries.map body).filterMap (stripFront? stem.hex) =
      (entries.filterMap (Entry.strip? stem)).map body := by
    rw [List.filterMap_map, List.map_filterMap]
    exact List.filterMap_congr fun entry _ => stripFront?_body stem entry
  rw [restrict, splitOn_lines, List.filterMap_append, hkept, List.filterMap_cons_none rfl,
    List.filterMap_nil, List.append_nil, List.flatMap_map]
  exact congrArg (List.flatMap · _) (funext fun entry => (line_eq entry).symm)

end Dump

end OrderedStore
