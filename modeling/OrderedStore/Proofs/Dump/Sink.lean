import OrderedStore.Dump
import OrderedStore.Proofs.Iterator.Drain

/-!
# Writing into a sink

A dump writes the lines of the entries that the walk shows, one after the other, and then reports the
error of the walk.  A sink that is full ends it before that.

* `Sink.writeAll_eq` says that a sink takes the same characters whatever pieces they come in.
* `Dump.writeLines_eq` separates what a dump writes from what it reports at the end.
* `Dump.writeLines_remaining` takes all lines as one text.
-/

namespace OrderedStore

/-! ### Writing in pieces -/

namespace Sink

/-- Writes the pieces one after the other, up to the first that the sink cannot hold. -/
def writeAll : List (List Char) → Sink → Except StoreError Unit × Sink
  | [], sink => (.ok (), sink)
  | piece :: pieces, sink => andThen (sink.write piece) (writeAll pieces)

/-- Two writes have the same outcome, and leave sinks that hold the same text and have the same room. -/
structure SameWrite (a b : Except StoreError Unit × Sink) : Prop where
  outcome : a.1 = b.1
  written : a.2.written = b.2.written
  room : a.2.room = b.2.room

namespace SameWrite

variable {a b c : Except StoreError Unit × Sink}

theorem trans (h : SameWrite a b) (h' : SameWrite b c) : SameWrite a c :=
  ⟨h.outcome.trans h'.outcome, h.written.trans h'.written, h.room.trans h'.room⟩

theorem andThen_congr (written : Except StoreError Unit × Sink)
    {next next' : Sink → Except StoreError Unit × Sink} (h : ∀ sink, SameWrite (next sink) (next' sink)) :
    SameWrite (andThen written next) (andThen written next') := by
  obtain ⟨_ | _, sink⟩ := written
  · exact ⟨rfl, rfl, rfl⟩
  · exact h sink

end SameWrite

/-- What is reported at the end leaves the sink as it is. -/
theorem andThen_report (written : Except StoreError Unit × Sink) (outcome : Except StoreError Unit) :
    andThen written (fun sink => (outcome, sink)) = (written.1 >>= fun _ => outcome, written.2) := by
  obtain ⟨_ | _, sink⟩ := written <;> rfl

theorem andThen_assoc (written : Except StoreError Unit × Sink)
    (next last : Sink → Except StoreError Unit × Sink) :
    andThen (andThen written next) last = andThen written fun sink => andThen (next sink) last := by
  obtain ⟨_ | _, sink⟩ := written <;> rfl

theorem outcome_write_of_some {sink : Sink} {text : List Char} {room : Nat} (h : sink.room = some room) :
    (sink.write text).1 = if text.length ≤ room then .ok () else .error (.backend "sink full") := by
  rw [write, h]

/-- Whatever is taken by a sink without failing is written. -/
theorem written_write_of_ok {sink : Sink} {text : List Char} (h : (sink.write text).1 = .ok ()) :
    (sink.write text).2.written = sink.written ++ text := by
  cases hroom : sink.room with
  | none => exact written_write_of_none hroom
  | some room =>
    have hfits : text.length ≤ room := Nat.not_lt.1 fun hfull => by
      rw [outcome_write_of_some hroom, if_neg (Nat.not_le.2 hfull)] at h
      cases h
    rw [written_write_of_some hroom, List.take_of_length_le hfits]

/-- Writing nothing changes nothing, even when the sink is full. -/
theorem write_nil (sink : Sink) : SameWrite (.ok (), sink) (sink.write []) := by
  cases hroom : sink.room with
  | none => constructor <;> simp [write, hroom, written]
  | some room => constructor <;> simp [write, hroom, written]

/-- Two texts in a row are taken as the one text that they make. -/
theorem write_append (sink : Sink) (front back : List Char) :
    SameWrite (andThen (sink.write front) fun sink => sink.write back) (sink.write (front ++ back)) := by
  cases hroom : sink.room with
  | none => constructor <;> simp [write, hroom, andThen, written]
  | some room =>
    by_cases hfits : front.length ≤ room
    · have hiff : back.length ≤ room - front.length ↔ (front ++ back).length ≤ room := by
        rw [List.length_append]
        omega
      constructor
      · simp [write, hroom, andThen, hfits, hiff]
      · simp [write, hroom, andThen, hfits, written, List.take_append, List.take_of_length_le]
      · simp [write, hroom, andThen, hfits]
        omega
    · -- The first text fills the sink, so nothing of the second one is attempted.
      have hfull : ¬ (front ++ back).length ≤ room := by
        rw [List.length_append]
        omega
      have hleft : room - front.length = 0 := by omega
      constructor
      · rw [write, hroom]
        simp only [andThen, if_neg hfits, if_neg hfull, write, hroom]
      · simp [write, hroom, andThen, hfits, written, List.take_append, hleft]
      · simp [write, hroom, andThen, hfits]
        omega

/-- A sink takes the same characters whatever pieces they come in, and fails for the same ones. -/
theorem writeAll_eq (pieces : List (List Char)) (sink : Sink) :
    SameWrite (writeAll pieces sink) (sink.write pieces.flatten) := by
  induction pieces generalizing sink with
  | nil => exact sink.write_nil
  | cons piece pieces ih =>
    exact (SameWrite.andThen_congr (sink.write piece) ih).trans (sink.write_append piece pieces.flatten)

end Sink

/-! ### Writing lines -/

namespace Dump

theorem writeLines_of_entry?_eq_none {it : Iterator} (h : it.entry? = none) (count : Nat)
    (sink : Sink) : writeLines count it sink = (ending it, sink) := by
  cases count with
  | zero => rfl
  | succ count => rw [writeLines, h]

theorem writeLines_of_entry?_eq_some {it : Iterator} {entry : Entry} (h : it.entry? = some entry)
    (count : Nat) (sink : Sink) :
    writeLines (count + 1) it sink =
      Sink.andThen (sink.write (line entry)) fun sink => writeLines count it.advance sink := by
  rw [writeLines, h]

/-- A dump writes the lines of the entries that the walk shows, and if the sink can hold them reports
what the walk ended with. -/
theorem writeLines_eq (count : Nat) (it : Iterator) (sink : Sink) :
    writeLines count it sink =
      Sink.andThen (Sink.writeAll ((it.drain count).1.map line) sink) fun sink =>
        (ending (it.drain count).2, sink) := by
  induction count generalizing it sink with
  | zero => rfl
  | succ count ih =>
    cases hentry : it.entry? with
    | none =>
      rw [writeLines_of_entry?_eq_none hentry, Iterator.drain_of_entry?_eq_none hentry]
      rfl
    | some entry =>
      rw [writeLines_of_entry?_eq_some hentry, Iterator.drain_of_entry?_eq_some hentry, List.map_cons,
        Sink.writeAll, Sink.andThen_assoc]
      exact congrArg (Sink.andThen _) (funext fun sink => ih it.advance sink)

theorem writeLines_eq_writeAll (it : Iterator) (sink : Sink) :
    writeLines it.remaining it sink =
      Sink.andThen (Sink.writeAll (it.drainAll.1.map line) sink) fun sink =>
        (ending it.drainAll.2, sink) :=
  writeLines_eq it.remaining it sink

/-- All lines are taken as one text. -/
theorem writeLines_remaining (it : Iterator) (sink : Sink) :
    (writeLines it.remaining it sink).1 =
        ((sink.write (it.drainAll.1.flatMap line)).1 >>= fun _ => ending it.drainAll.2) ∧
      (writeLines it.remaining it sink).2.written =
        (sink.write (it.drainAll.1.flatMap line)).2.written := by
  have hlines := Sink.writeAll_eq (it.drainAll.1.map line) sink
  rw [writeLines_eq_writeAll, Sink.andThen_report, List.flatMap_def]
  exact ⟨congrArg (· >>= _) hlines.outcome, hlines.written⟩

end Dump

/-! ### Dumps of stores -/

namespace Store

variable {σ : Type} {store : Store σ} {state after : σ}

/-- A walk that cannot begin leaves the sink as it is. -/
theorem run_dump_of_error {error : StoreError}
    (h : (store.iterator .ascending .all).run.run state = (.error error, after)) (sink : Sink) :
    (store.dump sink).run state = ((.error error, sink), after) :=
  StoreM.run_bind_of_run_eq h

theorem run_dump_of_ok {it : Iterator}
    (h : (store.iterator .ascending .all).run.run state = (.ok it, after)) (sink : Sink) :
    (store.dump sink).run state = (Dump.writeLines it.remaining it sink, after) :=
  StoreM.run_bind_of_run_eq h

end Store

end OrderedStore
