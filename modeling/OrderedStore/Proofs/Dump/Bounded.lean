import OrderedStore.Engine.Scripted
import OrderedStore.Proofs.Bytes.Hex
import OrderedStore.Proofs.Dump.Sink
import OrderedStore.View

/-!
# Dumps into a bounded sink

A sink that takes a number of bytes is left with so many of the text of a dump.  Which error is reported
depends on where the sink is full and where the walk has ended.

* `Dump.utf8Size_of_mem_lines` says that the text has one byte for each character.
* `Store.dump_ofLimit` says how much of the text is written, and which error is reported.
-/

namespace OrderedStore

namespace Dump

/-- The characters of a line take one byte each. -/
theorem utf8Size_of_mem_line (entry : Entry) : ∀ char ∈ line entry, char.utf8Size = 1 := by
  have hhex := Bytes.forall_mem_hex (p := fun char => char.utf8Size = 1) (by decide)
  simp only [line, List.forall_mem_append]
  refine ⟨⟨⟨⟨?_, hhex _⟩, ?_⟩, hhex _⟩, ?_⟩
  · simp [Char.utf8Size]
  · simp [Char.utf8Size]
  · simp [Char.utf8Size]

theorem utf8Size_of_mem_lines (entries : List Entry) :
    ∀ char ∈ entries.flatMap line, char.utf8Size = 1 := fun char hchar => by
  obtain ⟨entry, -, hline⟩ := List.mem_flatMap.1 hchar
  exact utf8Size_of_mem_line entry char hline

end Dump

namespace Store

variable {σ : Type}

/-- **Dumps into a bounded sink.**  If the walk over a store cannot begin, a dump reports its error as it is
and writes nothing.  Otherwise the text of the dump is made of the lines of the entries that the walk shows
until it is invalid, and as much of it is written as the sink takes: if that is not all of it, the error of
the sink is reported, whatever the walk would have ended with.  If it is all of it, the dump succeeds, unless
the walk has ended with an error, whose message is reported. -/
theorem dump_ofLimit (store : Store σ) (state : σ) (limit : Nat) :
    (∀ error after, (store.iterator .ascending .all).run.run state = (.error error, after) →
      (store.dump (.ofLimit (some limit))).run state = ((.error error, .ofLimit (some limit)), after)) ∧
    ∀ it after, (store.iterator .ascending .all).run.run state = (.ok it, after) →
      let text := Bytes.ofString (String.ofList (it.drainAll.1.flatMap Dump.line))
      it.drainAll.2.valid = false ∧
      ∃ outcome sink, (store.dump (.ofLimit (some limit))).run state = ((outcome, sink), after) ∧
        Bytes.ofString sink.text = text.take (min limit text.length) ∧
        (limit < text.length → outcome = .error (.backend "sink full")) ∧
        (text.length ≤ limit → it.drainAll.2.error? = none → outcome = .ok ()) ∧
        ∀ error, text.length ≤ limit → it.drainAll.2.error? = some error →
          outcome = .error (.backend error.message) := by
  refine ⟨fun error after hrun => run_dump_of_error hrun _, fun it after hrun => ?_⟩
  obtain ⟨houtcome, hwritten⟩ := Dump.writeLines_remaining it (.ofLimit (some limit))
  rw [Sink.written_write_of_some rfl, Sink.written_ofLimit, List.nil_append] at hwritten
  have hbytes := Dump.utf8Size_of_mem_lines it.drainAll.1
  intro text
  have hlength : text.length = (it.drainAll.1.flatMap Dump.line).length :=
    (congrArg List.length (Bytes.ofString_ofList hbytes)).trans (List.length_map _)
  rw [Sink.outcome_write_of_some rfl, ← hlength] at houtcome
  refine ⟨it.valid_drainAll, _, _, run_dump_of_ok hrun _, ?_, fun hfull => ?_, fun hfits hnone => ?_,
    fun error hfits herror => ?_⟩
  · rw [Sink.text, hwritten, Bytes.ofString_take hbytes]
    exact List.take_eq_take_min
  · rw [houtcome, if_neg (Nat.not_le.2 hfull)]
    rfl
  · rw [houtcome, if_pos hfits, Dump.ending_of_eq_none hnone]
    rfl
  · rw [houtcome, if_pos hfits, Dump.ending_of_eq_some herror]
    rfl

/-- A view of an engine whose cursors fail behind the first entry.  The line of this entry has nine bytes: a
sink that takes them all leaves the failure to be reported, a smaller one is reported itself.  An engine that
opens no cursor fails before. -/
theorem dump_ofLimit_torn :
    let contents := Contents.ofList [⟨[9], [7]⟩, ⟨[9, 1], [8]⟩]
    let torn : Scripted := { Scripted.empty with contents := contents, itemFault := some (1, "torn") }
    let shut : Scripted := torn.placeFault .cursorOpen "shut"
    let store := (Scripted.engine true).store.view [9]
    let dump := fun limit => store.dump (.ofLimit (some limit))
    (∃ sink after, (dump 9).run torn = ((.error (.backend "backend failure: torn"), sink), after) ∧
      Bytes.ofString sink.text = Bytes.ofString "[]:\t[07]\n") ∧
    (∃ sink after, (dump 8).run torn = ((.error (.backend "sink full"), sink), after) ∧
      Bytes.ofString sink.text = Bytes.ofString "[]:\t[07]") ∧
    ∃ after, (dump 8).run shut = ((.error (.backend "shut"), .ofLimit (some 8)), after) := by
  intro contents torn shut store dump
  obtain ⟨-, _, fits, hfits, hline, -, -, htorn⟩ := (dump_ofLimit store torn 9).2 _ _ rfl
  obtain ⟨-, _, full, hfull, hfront, hsink, -, -⟩ := (dump_ofLimit store torn 8).2 _ _ rfl
  have hshut := (dump_ofLimit store shut 8).1 (.backend "shut") _ rfl
  rw [htorn (.backend "torn") (by decide) rfl] at hfits
  rw [hsink (by decide)] at hfull
  exact ⟨⟨fits, _, hfits, hline.trans (by decide)⟩, ⟨full, _, hfull, hfront.trans (by decide)⟩, _, hshut⟩

end Store

end OrderedStore
