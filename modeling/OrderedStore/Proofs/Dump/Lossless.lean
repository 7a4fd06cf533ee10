import OrderedStore.Proofs.Backend.Faultless
import OrderedStore.Proofs.Dump
import OrderedStore.Proofs.View.Ranges
import OrderedStore.Proofs.View.Writes

/-!
# Reading dumps back

The entries of a dump can be read off its text, and no other text is read as these entries.  The text of a
dump is therefore known from what the store shows, and what the store shows from the text.

* `Dump.takeBytes?_eq_some_iff` and `Dump.takeLine?_eq_some_iff` read off the beginning of a text.
* `Dump.read?_eq_some_iff` reads whole dumps.
* `Store.Dumps` says what successful dumps write, `Store.Walks.dumps_iff` that they write the lines of what
  the store shows.
* `Store.Faultless.dump_lossless` compares the dumps of stores without faults.
-/

namespace OrderedStore

namespace Dump

/-! ### Bytes -/

/-- A character is read as the number whose digit it is. -/
theorem digit?_eq_some_iff {char : Char} {n : Nat} :
    digit? char = some n ↔ n < 16 ∧ Bytes.hexDigit n = char := by
  constructor
  · intro h
    rw [digit?] at h
    split at h
    · rename_i hin
      obtain ⟨hlow, hhigh⟩ := hin
      have hlow' : 48 ≤ char.toNat := hlow
      have hhigh' : char.toNat ≤ 57 := hhigh
      cases h
      refine ⟨by omega, ?_⟩
      rw [Bytes.hexDigit, if_pos (by omega), Nat.add_sub_cancel' hlow', Char.ofNat_toNat]
    · split at h
      · rename_i hin
        obtain ⟨hlow, hhigh⟩ := hin
        have hlow' : 65 ≤ char.toNat := hlow
        have hhigh' : char.toNat ≤ 70 := hhigh
        cases h
        refine ⟨by omega, ?_⟩
        rw [Bytes.hexDigit, if_neg (by omega), Nat.add_sub_cancel' (by omega), Char.ofNat_toNat]
      · cases h
  · rintro ⟨hn, rfl⟩
    revert n
    decide

/-- Two characters are read as the byte whose digits they are. -/
theorem byte?_eq_some_iff {high low : Char} {byte : UInt8} :
    byte? high low = some byte ↔
      Bytes.hexDigit (byte.toNat / 16) = high ∧ Bytes.hexDigit (byte.toNat % 16) = low := by
  have hlt := byte.toNat_lt
  have hread : byte? high low = some byte ↔
      ∃ m n, digit? high = some m ∧ digit? low = some n ∧ UInt8.ofNat (m * 16 + n) = byte := by
    simp [byte?, Option.bind_eq_some_iff]
  rw [hread]
  constructor
  · rintro ⟨m, n, hm, hn, rfl⟩
    obtain ⟨hm16, rfl⟩ := digit?_eq_some_iff.1 hm
    obtain ⟨hn16, rfl⟩ := digit?_eq_some_iff.1 hn
    have hsize : m * 16 + n < 256 := by omega
    have htoNat : (UInt8.ofNat (m * 16 + n)).toNat = m * 16 + n := UInt8.toNat_ofNat_of_lt hsize
    rw [htoNat]
    exact ⟨congrArg _ (by omega), congrArg _ (by omega)⟩
  · rintro ⟨hhigh, hlow⟩
    refine ⟨byte.toNat / 16, byte.toNat % 16, digit?_eq_some_iff.2 ⟨by omega, hhigh⟩,
      digit?_eq_some_iff.2 ⟨by omega, hlow⟩, ?_⟩
    rw [Nat.div_add_mod', UInt8.ofNat_toNat]

/-- Byte strings are read up to the closing bracket. -/
theorem takeBytes?_eq_some_iff {text : List Char} {bytes : Bytes} {rest : List Char} :
    takeBytes? text = some (bytes, rest) ↔ text = bytes.hex ++ ']' :: rest := by
  constructor
  · intro h
    fun_induction takeBytes? text generalizing bytes with
    | case1 => cases h; rfl
    | case2 => cases h
    | case3 high low text _ byte hbyte ih =>
      obtain ⟨⟨read, rest'⟩, hread, heq⟩ := Option.map_eq_some_iff.1 h
      cases heq
      obtain ⟨rfl, rfl⟩ := byte?_eq_some_iff.1 hbyte
      rw [ih hread, Bytes.hex_cons]
      rfl
    | case4 => cases h
  · rintro rfl
    induction bytes with
    | nil => rfl
    | cons byte bytes ih =>
      have hdigit : Bytes.hexDigit (byte.toNat / 16) ≠ ']' := by
        have hlt := byte.toNat_lt
        exact (by decide : ∀ n < 16, Bytes.hexDigit n ≠ ']') _ (by omega)
      have hbyte : byte? (Bytes.hexDigit (byte.toNat / 16)) (Bytes.hexDigit (byte.toNat % 16)) = some byte :=
        byte?_eq_some_iff.2 ⟨rfl, rfl⟩
      rw [Bytes.hex_cons, List.cons_append, List.cons_append, takeBytes?, hbyte]
      · simp [ih]
      · exact fun h => hdigit h

/-! ### Lines -/

theorem takeLine?_eq_some_iff {text : List Char} {entry : Entry} {rest : List Char} :
    takeLine? text = some (entry, rest) ↔ text = line entry ++ rest := by
  constructor
  · intro h
    unfold takeLine? at h
    split at h
    · split at h
      · split at h
        · rename_i hkey _ _ _ hvalue
          cases h
          rw [takeBytes?_eq_some_iff] at hkey hvalue
          rw [hkey, hvalue]
          simp [line]
        · cases h
      · cases h
    · cases h
  · rintro rfl
    have hkey : takeBytes? (entry.key.hex ++ ']' :: ':' :: '\t' :: '[' ::
        (entry.value.hex ++ ']' :: '\n' :: rest)) =
          some (entry.key, ':' :: '\t' :: '[' :: (entry.value.hex ++ ']' :: '\n' :: rest)) :=
      takeBytes?_eq_some_iff.2 rfl
    have hvalue : takeBytes? (entry.value.hex ++ ']' :: '\n' :: rest) = some (entry.value, '\n' :: rest) :=
      takeBytes?_eq_some_iff.2 rfl
    simp [line, takeLine?, hkey, hvalue]

theorem length_le_length_lines (entries : List Entry) : entries.length ≤ (entries.flatMap line).length := by
  induction entries with
  | nil => exact Nat.le.refl
  | cons entry entries ih =>
    have hline : 0 < (line entry).length := by simp [line]
    rw [List.flatMap_cons, List.length_append, List.length_cons]
    omega

/-- What is read is the whole text. -/
theorem eq_lines_of_takeLines? {count : Nat} {text : List Char} {entries : List Entry}
    (h : takeLines? count text = some entries) : text = entries.flatMap line := by
  fun_induction takeLines? count text generalizing entries with
  | case1 => cases h; rfl
  | case2 => cases h
  | case3 => cases h
  | case4 count text _ entry rest hline ih =>
    obtain ⟨others, hothers, rfl⟩ := Option.map_eq_some_iff.1 h
    rw [takeLine?_eq_some_iff.1 hline, ih hothers, List.flatMap_cons]

/-- All lines are read, if so many are allowed for. -/
theorem takeLines?_lines {count : Nat} {entries : List Entry} (h : entries.length ≤ count) :
    takeLines? count (entries.flatMap line) = some entries := by
  induction entries generalizing count with
  | nil => cases count <;> rfl
  | cons entry entries ih =>
    cases count with
    | zero => cases h
    | succ count =>
      have hline : takeLine? (line entry ++ entries.flatMap line) = some (entry, entries.flatMap line) :=
        takeLine?_eq_some_iff.2 rfl
      have hne : line entry ++ entries.flatMap line ≠ [] := by simp [line]
      rw [List.flatMap_cons, takeLines?, hline]
      · simp [ih (Nat.le_of_succ_le_succ h)]
      · exact hne

/-- **A text is read as these entries just if it is made of their lines.** -/
theorem read?_eq_some_iff {text : List Char} {entries : List Entry} :
    read? text = some entries ↔ text = entries.flatMap line := by
  refine ⟨eq_lines_of_takeLines?, ?_⟩
  rintro rfl
  exact takeLines?_lines (length_le_length_lines entries)

/-- Different entries have different lines. -/
theorem lines_inj {a b : List Entry} : a.flatMap line = b.flatMap line ↔ a = b :=
  ⟨fun h => Option.some.inj ((read?_eq_some_iff.2 rfl).symm.trans (read?_eq_some_iff.2 h)), congrArg _⟩

end Dump

/-! ### Dumps of stores -/

variable {σ τ : Type}

/-- A successful dump of the store in this state writes this text, with some limit or without one. -/
def Store.Dumps (store : Store σ) (state : σ) (text : String) : Prop :=
  ∃ limit sink after, (store.dump (.ofLimit limit)).run state = ((.ok (), sink), after) ∧ sink.text = text

/-- Successful dumps write the lines of the entries that are walked, and nothing else. -/
theorem Store.Walks.dumps_iff {store : Store σ} {state : σ} {contents : Contents}
    (h : store.Walks state contents) {text : String} :
    store.Dumps state text ↔ text.toList = contents.entries.flatMap Dump.line := by
  constructor
  · rintro ⟨limit, sink, after, hrun, rfl⟩
    obtain ⟨written, hrun', hwritten⟩ := h.run_dump (.ofLimit limit)
    obtain ⟨hpair, -⟩ := Prod.mk.inj (hrun.symm.trans hrun')
    obtain ⟨hok, rfl⟩ := Prod.mk.inj hpair
    rw [Sink.text, String.toList_ofList, hwritten, Sink.written_write_of_ok hok.symm]
    rfl
  · intro htext
    obtain ⟨sink, hrun, hsink⟩ := h.dump_unlimited
    exact ⟨none, sink, state, hrun, by rw [hsink, ← htext, String.ofList_toList]⟩

/-- Stores that cannot be told apart have the same dumps. -/
theorem Store.Alike.dumps_iff {R : σ → τ → Prop} {a : Store σ} {b : Store τ} (h : a.Alike R b) {s : σ}
    {t : τ} (hR : R s t) {text : String} : a.Dumps s text ↔ b.Dumps t text := by
  have hsame : ∀ limit, ((a.dump (.ofLimit limit)).run s).1 = ((b.dump (.ofLimit limit)).run t).1 :=
    fun limit => ((h.alikeWith h.newBatch).dump (.ofLimit limit) s t hR).1
  constructor
  · rintro ⟨limit, sink, after, hrun, htext⟩
    exact ⟨limit, sink, _, Prod.ext ((hsame limit).symm.trans (congrArg Prod.fst hrun)) rfl, htext⟩
  · rintro ⟨limit, sink, after, hrun, htext⟩
    exact ⟨limit, sink, _, Prod.ext ((hsame limit).trans (congrArg Prod.fst hrun)) rfl, htext⟩

namespace Contents

/-- A stack of views of contents walks what is shown under all its stems. -/
theorem walks_handle {ρ : Type} (contents : Contents) (handle : Handle ρ) :
    (handle.store fun _ => Contents.store).Walks contents (contents.stripped handle.stem) := by
  induction handle with
  | root name =>
    rw [Handle.stem, stripped_nil]
    exact contents.walks
  | view stem source ih =>
    rw [Handle.stem, ← stripped_stripped]
    exact ih.view stem

end Contents

/-- Successful dumps of a store without faults, through any stack of views, write the lines of what is
shown. -/
theorem Store.Faultless.dumps_iff {store : Store σ} {holds : σ → Contents → Prop}
    (h : store.Faultless holds) {state : σ} {contents : Contents} (hs : holds state contents)
    (handle : Handle Unit) {text : String} :
    (handle.store fun _ => store).Dumps state text ↔
      text.toList = (contents.stripped handle.stem).entries.flatMap Dump.line :=
  ((Handle.store_alike (fun _ => h.alike) handle).dumps_iff hs).trans
    (contents.walks_handle handle).dumps_iff

/-- **Dumps are lossless.**  A store without faults, in memory or over an engine, is seen through any stack of
views, and can be dumped.  Its iterator yields the entries that its contents have under the stems, and a text
is what a successful dump writes just if it is read back as these entries.  Therefore the texts of two such
stores are the same just if both show the same entries, however each of them has come to hold them. -/
theorem Store.Faultless.dump_lossless {a : Store σ} {b : Store τ} {holdsA : σ → Contents → Prop}
    {holdsB : τ → Contents → Prop} (ha : a.Faultless holdsA) (hb : b.Faultless holdsB) {s : σ} {t : τ}
    {c d : Contents} (hs : holdsA s c) (ht : holdsB t d) (viewA viewB : Handle Unit) :
    let first := viewA.store fun _ => a
    let second := viewB.store fun _ => b
    let entries := (c.stripped viewA.stem).entries
    let others := (d.stripped viewB.stem).entries
    (∃ it after, (first.iterator .ascending .all).run.run s = (.ok it, after) ∧ it.drainAll.1 = entries) ∧
      (∃ text, first.Dumps s text) ∧
      (∀ text, first.Dumps s text ↔ Dump.read? text.toList = some entries) ∧
      ∀ textA textB, first.Dumps s textA → second.Dumps t textB → (textA = textB ↔ entries = others) := by
  intro first second entries others
  refine ⟨?_, ⟨String.ofList (entries.flatMap Dump.line), ?_⟩, fun text => ?_,
    fun textA textB hA hB => ?_⟩
  · obtain ⟨it, after, hrun, hall⟩ :=
      (Handle.store_alike (fun _ => ha.alike) viewA).honoursBounds hs (c.walks_handle viewA).honoursBounds
        .ascending .all rfl
    exact ⟨it, after, hrun, hall.trans (List.filter_eq_self.2 fun _ _ => rfl)⟩
  · rw [ha.dumps_iff hs viewA, String.toList_ofList]
  · rw [ha.dumps_iff hs viewA, Dump.read?_eq_some_iff]
  · rw [ha.dumps_iff hs viewA] at hA
    rw [hb.dumps_iff ht viewB] at hB
    rw [← String.toList_inj, hA, hB, Dump.lines_inj]

/-- A view in memory, the same view of a tree of another shape, which other writes have made, and a view of an
engine under another stem. -/
theorem Store.Faultless.dump_lossless_histories :
    let ops : List Operation := [.set [1] [6], .set [1, 2] [], .set [1, 3] [5], .set [2] [7]]
    let others : List Operation := [.set [2] [7], .set [1, 9] [1], .set [1, 3] [4], .set [1, 2] [],
      .delete [1, 9], .set [1, 3] [5], .set [1] [6]]
    let map := ops.foldl Memory.applyTo .empty
    let other := others.foldl Memory.applyTo .empty
    let state : Scripted :=
      { Scripted.empty with contents := .ofList [⟨[8], [6]⟩, ⟨[8, 2], []⟩, ⟨[8, 3], [5]⟩] }
    map ≠ other ∧ ∃ text, (Memory.store.view [1]).Dumps map text ∧
      (Memory.store.view [1]).Dumps other text ∧ ((Scripted.engine true).store.view [8]).Dumps state text ∧
      Dump.read? text.toList = some [⟨[], [6]⟩, ⟨[2], []⟩, ⟨[3], [5]⟩] := by
  intro ops others map other state
  have hmap : map.Holds (ops.foldl Contents.applyTo .empty) :=
    Memory.holds_foldl_applyTo OrderedMap.holds_empty ops
  have hother : other.Holds (others.foldl Contents.applyTo .empty) :=
    Memory.holds_foldl_applyTo OrderedMap.holds_empty others
  have hstate : state.FaultlessWith state.contents := ⟨rfl, rfl, rfl, rfl⟩
  have hengine : (Scripted.engine true).store.Faultless Scripted.FaultlessWith := .engine (Scripted.actsAs true)
  let view : Handle Unit := .view [1] (.root ())
  obtain ⟨-, ⟨text, htext⟩, hread, -⟩ := dump_lossless .memory .memory hmap hother view view
  obtain ⟨-, ⟨textO, hO⟩, -, hsameO⟩ := dump_lossless .memory .memory hother hmap view view
  obtain ⟨-, ⟨textE, hE⟩, -, hsameE⟩ :=
    dump_lossless hengine .memory hstate hmap (.view [8] (.root ())) view
  obtain rfl := (hsameO textO text hO htext).2 (by decide +kernel)
  obtain rfl := (hsameE textE textO hE htext).2 (by decide +kernel)
  exact ⟨by decide +kernel, textE, htext, hO, hE, ((hread textE).1 htext).trans (by decide +kernel)⟩

end OrderedStore
