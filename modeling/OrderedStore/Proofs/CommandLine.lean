import OrderedStore.CommandLine
import OrderedStore.Proofs.Backend.Disks
import OrderedStore.Proofs.Dump
import OrderedStore.Proofs.View.Writes
import OrderedStore.Proofs.World

/-!
# What the command line shows

A run on a disk store reports that the store is opened and what its statistics are, shows the entries that
are kept at its path, or those of them whose keys begin with the given text, and reports that it is closed.
It changes nothing that is kept.  Arguments that name no store are refused before one is opened, an unknown
backend before anything else.

* `Log.Silent.render` is what is written if no event is.
* `CommandLine.run_display_disk` is a run on a disk store, `CommandLine.run_disk` with what it writes.
* `CommandLine.parse_of_unknown` and `CommandLine.parse_of_usage` are the arguments that are refused.
* `CommandLine.run_shows_selected` puts them together for a log that is silent.
-/

namespace OrderedStore

variable {φ : Type}

/-! ### Silent logs -/

/-- The texts among the pieces. -/
def Printed.texts : List Printed → String
  | [] => ""
  | .event _ :: pieces => texts pieces
  | .text words :: pieces => words ++ texts pieces

theorem Printed.texts_append (first second : List Printed) :
    texts (first ++ second) = texts first ++ texts second := by
  induction first with
  | nil => rw [List.nil_append, texts, String.empty_append]
  | cons piece pieces ih =>
    cases piece with
    | event event => exact ih
    | text words => rw [List.cons_append, texts, texts, ih, String.append_assoc]

theorem Printed.texts_events (events : List Event) : texts (events.map .event) = "" := by
  induction events with
  | nil => rfl
  | cons event events ih => exact ih

/-- A silent log leaves the texts. -/
theorem Log.Silent.render {log : Log} (h : log.Silent) (place : Nat) (pieces : List Printed) :
    log.render place pieces = Printed.texts pieces := by
  induction pieces generalizing place with
  | nil => rfl
  | cons piece pieces ih =>
    rw [Log.render, ih]
    cases piece with
    | event event => rw [wordsOf, h, String.empty_append, Printed.texts]
    | text words => rfl

namespace CommandLine

variable {sled : Sled φ} {meaning : Sled.Meaning φ} {packages : Packages φ}

/-! ### Runs on a store -/

/-- What an invocation shows of contents. -/
def Invocation.selected (invocation : Invocation) (contents : Contents) : Contents :=
  match invocation.stem with
  | none => contents
  | some stem => contents.stripped (.ofString stem)

theorem Invocation.walks_shown {store : Store (World φ)} {world : World φ} {contents : Contents}
    (h : store.Walks world contents) (invocation : Invocation) :
    (invocation.shown store).Walks world (invocation.selected contents) := by
  obtain ⟨config, stem⟩ := invocation
  cases stem with
  | none => exact h
  | some stem => exact h.view (.ofString stem)

/-- The lines of the entries that an invocation shows of contents. -/
def Invocation.lines (invocation : Invocation) (contents : Contents) : String :=
  String.ofList ((invocation.selected contents).entries.flatMap Dump.line)

/-- With an empty text everything is shown. -/
theorem Invocation.lines_empty (config : Config) (contents : Contents) :
    lines ⟨config, some ""⟩ contents = lines ⟨config, none⟩ contents := by
  have hempty : Bytes.ofString "" = [] := rfl
  show String.ofList ((contents.stripped (Bytes.ofString "")).entries.flatMap Dump.line) = _
  rw [hempty, Contents.stripped_nil]
  rfl

/-- What is shown for a text is found in what is shown without one. -/
theorem Invocation.lines_eq_restrict (config : Config) (stem : String) (contents : Contents) :
    lines ⟨config, some stem⟩ contents =
      String.ofList (Dump.restrict (Bytes.ofString stem).hex (lines ⟨config, none⟩ contents).toList) := by
  show _ = String.ofList (Dump.restrict _ (String.ofList (contents.entries.flatMap Dump.line)).toList)
  rw [String.toList_ofList, Dump.restrict_lines]
  rfl

/-- A store that is walked and closed without an error reports its statistics and writes the selected
entries. -/
theorem run_displayStore {invocation : Invocation} {opened closed : World φ} {root : Root} {contents : Contents}
    (hwalks : ∀ pieces, (World.store sled root).Walks (opened.printing pieces) contents)
    (hclose : (World.store sled root).close.attempt.run (opened.printing
      ((invocation.statsEvents sled root opened).map .event ++ [.text (invocation.lines contents)])) =
        (.ok (), closed)) :
    (displayStore sled root invocation).run opened = (.ok (), closed) := by
  obtain ⟨sink, hdump, htext⟩ := (Invocation.walks_shown (hwalks
    ((invocation.statsEvents sled root opened).map .event)) invocation).dump_unlimited
  have hget : (get : StateM (World φ) (World φ)).run opened = (opened, opened) := rfl
  rw [← World.printing_printing, Invocation.lines, ← htext] at hclose
  rw [displayStore, StoreM.run_bind_of_run_eq hget,
    StoreM.run_bind_of_run_eq (World.run_reportAll _ opened), StoreM.run_bind_of_run_eq hdump]
  have hprint : (World.print (.text sink.text)).run
      (opened.printing ((invocation.statsEvents sled root opened).map .event)) = ((), _) := rfl
  exact (StoreM.run_bind_of_run_eq hprint).trans (StoreM.run_bind_of_run_eq hclose)

/-- A run on a disk store shows the selected entries of what is kept at its path, between the reports, and
keeps what is kept anywhere. -/
theorem run_display_disk (h : sled.Lawful meaning) (world : World φ) {name dir : String} (stem : Option String)
    (hready : meaning.Ready world.disks (World.pathOf name dir)) :
    let invocation : Invocation := ⟨⟨name, .disk, dir⟩, stem⟩
    ∃ (stats : List Event) (disks : φ),
      (display sled (.standard sled) invocation).run world =
        (.ok (), (world.withDisks disks).printing
          ([.event (.openingStore name .disk dir), .event (.openingDatabase (World.pathOf name dir))] ++
            stats.map .event ++
            [.text (invocation.lines (meaning.stored world.disks (World.pathOf name dir))),
              .event (.closingEngine "sled")])) ∧
      meaning.stored disks = meaning.stored world.disks := by
  intro invocation
  obtain ⟨db, opened, hopen, hholds, hkept⟩ := World.run_openStore_disk h hready
  let first := (world.withDisks opened).printing
    [.event (.openingStore name .disk dir), .event (.openingDatabase (World.pathOf name dir))]
  let shown : List Printed := (invocation.statsEvents sled (.disk db) first).map .event ++
    [.text (invocation.lines (meaning.stored world.disks (World.pathOf name dir)))]
  -- The package has kept what the database holds, whatever has been written.
  have hwalks : ∀ pieces, (World.store sled (.disk db)).Walks (first.printing pieces)
      (meaning.stored world.disks (World.pathOf name dir)) := fun pieces => World.walks_disk h hholds
  have hshown : meaning.Holds (first.printing shown).disks db (World.pathOf name dir)
      (meaning.stored world.disks (World.pathOf name dir)) := hholds
  obtain ⟨disks, hclose, -, hsame⟩ := World.run_close_disk h hshown
  have hopened : meaning.stored (first.printing shown).disks = meaning.stored world.disks := hkept
  refine ⟨invocation.statsEvents sled (.disk db) first, disks, ?_, ?_⟩
  · refine (StoreM.run_bind_of_run_eq hopen).trans ((run_displayStore hwalks hclose).trans ?_)
    simp [first, shown, World.printing, World.withDisks]
  · rw [hsame (congrFun hopened _), hopened]

section Disk

variable (h : packages.sled.Lawful meaning) {files : φ} {name dir : String} (stem : Option String)
  (hready : meaning.Ready files (World.pathOf name dir))

include h hready

/-- The run that shows a disk store ends well, and writes what is shown between what is reported. -/
theorem run_disk {args : List String} (hargs : parse args = .ok ⟨⟨name, .disk, dir⟩, stem⟩) :
    ∃ (stats : List Event) (disks : φ),
      (run packages args).run files =
        (packages.exit
          ([.event (.openingStore name .disk dir), .event (.openingDatabase (World.pathOf name dir))] ++
            stats.map .event ++
            [.text (Invocation.lines ⟨⟨name, .disk, dir⟩, stem⟩ (meaning.stored files (World.pathOf name dir))),
              .event (.closingEngine "sled")]) (.ok ()), disks) ∧
      meaning.stored disks = meaning.stored files := by
  obtain ⟨stats, disks, hrun, hkept⟩ := run_display_disk h (.ofDisks files) stem hready
  refine ⟨stats, disks, ?_, hkept⟩
  rw [run, hargs]
  exact StoreM.run_bind_of_run_eq (World.run_onDisks hrun)

/-- If nothing is written for events, the run writes what is shown and nothing else. -/
theorem run_disk_of_silent (hsilent : packages.log.Silent) {args : List String}
    (hargs : parse args = .ok ⟨⟨name, .disk, dir⟩, stem⟩) :
    ∃ disks,
      (run packages args).run files =
        (⟨0, Invocation.lines ⟨⟨name, .disk, dir⟩, stem⟩ (meaning.stored files (World.pathOf name dir)), ""⟩,
          disks) ∧
      meaning.stored disks = meaning.stored files := by
  obtain ⟨stats, disks, hrun, hkept⟩ := run_disk h stem hready hargs
  refine ⟨disks, hrun.trans ?_, hkept⟩
  have htexts : ∀ lines : String, Printed.texts
      ([.event (.openingStore name .disk dir), .event (.openingDatabase (World.pathOf name dir))] ++
        stats.map .event ++ [.text lines, .event (.closingEngine "sled")]) = lines := by
    intro lines
    rw [Printed.texts_append, Printed.texts_append, Printed.texts_events]
    simp [Printed.texts]
  rw [Packages.exit, hsilent.render, htexts]

end Disk

/-! ### Arguments -/

theorem parse_of_unknown {first : String} (h : ∀ backend : Backend, first ≠ backend.name)
    (rest : List String) : parse (first :: rest) = .error (.backend (.unknownBackend first)) := by
  rw [parse, Backend.ofName, if_neg (h .memory), if_neg (h .disk)]

theorem parse_of_usage {args : List String}
    (hknown : ∀ first ∈ args.head?, ∃ backend : Backend, first = backend.name)
    (hlength : args.length < 2 ∨ 4 < args.length) : parse args = .error .usage := by
  cases args with
  | nil => rfl
  | cons first rest =>
    obtain ⟨backend, rfl⟩ := hknown first rfl
    rw [parse, Backend.ofName_name]
    show parseRest backend rest = .error .usage
    rw [List.length_cons] at hlength
    match rest, hlength with
    | [], _ => rfl
    | [_], h => simp at h
    | [_, _], h => simp at h
    | [_, _, _], h => simp at h
    | _ :: _ :: _ :: _ :: _, _ => rfl

/-- Arguments that cannot be read end the run with an error; nothing is opened and nothing is written beside
the error. -/
theorem run_of_parse_eq_error {args : List String} {failure : Failure} (h : parse args = .error failure) :
    run packages args = pure ⟨1, "", "Error: " ++ packages.describe failure.messages ++ "\n"⟩ := by
  rw [run, h]
  rfl

/-- The run on a disk store shows what the store holds; with a text it shows the entries whose keys begin
with the bytes of the text, without these, and this is what is kept of the whole dump by the text of the
bytes.  With an empty text it shows the same.  Nothing that is kept is changed.  This is so if the package for
disk stores keeps ordered maps, the store can be opened, and nothing is written for events.  An unknown
backend is refused, whatever follows it, and other arguments if they are too few or too many, before a store is
opened. -/
theorem run_shows_selected (packages : Packages φ) :
    (∀ meaning : Sled.Meaning φ, packages.sled.Lawful meaning → packages.log.Silent →
      ∀ (files : φ) (dir name stem : String), meaning.Ready files (World.pathOf name dir) →
      let stored := meaning.stored files (World.pathOf name dir)
      let whole := (run packages ["sled", dir, name]).run files
      let part := (run packages ["sled", dir, name, stem]).run files
      whole.1 = ⟨0, String.ofList (stored.entries.flatMap Dump.line), ""⟩ ∧
        part.1 =
          ⟨0, String.ofList ((stored.stripped (.ofString stem)).entries.flatMap Dump.line), ""⟩ ∧
        part.1.out =
          String.ofList (Dump.restrict (Bytes.ofString stem).hex whole.1.out.toList) ∧
        (stem = "" → part.1 = whole.1) ∧
        meaning.stored whole.2 = meaning.stored files ∧ meaning.stored part.2 = meaning.stored files) ∧
    (∀ first rest, (∀ backend : Backend, first ≠ backend.name) →
      parse (first :: rest) = .error (.backend (.unknownBackend first)) ∧
        run packages (first :: rest) =
          pure ⟨1, "", "Error: " ++ packages.describe [(StoreError.unknownBackend first).message] ++ "\n"⟩) ∧
    ∀ args, (∀ first ∈ args.head?, ∃ backend : Backend, first = backend.name) →
      args.length < 2 ∨ 4 < args.length →
      parse args = .error .usage ∧
        run packages args = pure ⟨1, "", "Error: " ++ packages.describe Failure.usage.messages ++ "\n"⟩ := by
  refine ⟨?_, ?_, ?_⟩
  · intro meaning hlawful hsilent files dir name stem hready stored whole part
    have hargsWhole : parse ["sled", dir, name] = .ok ⟨⟨name, .disk, dir⟩, none⟩ := rfl
    have hargsPart : parse ["sled", dir, name, stem] = .ok ⟨⟨name, .disk, dir⟩, some stem⟩ := rfl
    obtain ⟨afterWhole, hwhole, hkeptWhole⟩ := run_disk_of_silent hlawful none hready hsilent hargsWhole
    obtain ⟨afterPart, hpart, hkeptPart⟩ := run_disk_of_silent hlawful (some stem) hready hsilent hargsPart
    have hwhole' : whole = _ := hwhole
    have hpart' : part = _ := hpart
    rw [hwhole', hpart']
    refine ⟨rfl, rfl, Invocation.lines_eq_restrict _ _ _, ?_, hkeptWhole, hkeptPart⟩
    rintro rfl
    exact congrArg (Exit.mk 0 · "") (Invocation.lines_empty _ _)
  · exact fun first rest h => ⟨parse_of_unknown h rest, run_of_parse_eq_error (parse_of_unknown h rest)⟩
  · exact fun args hknown hlength =>
      ⟨parse_of_usage hknown hlength, run_of_parse_eq_error (parse_of_usage hknown hlength)⟩

/-- The selected keys begin with both bytes of a letter; their neighbours are not shown. -/
theorem run_shows_selected_accented :
    ((run .plain ["sled", "data", "app", "é"]).run (.ofContents (Path.resolve (World.pathOf "app" "data"))
        (.ofList [⟨[0xC3, 0xA8, 0xFF], [0]⟩, ⟨[0xC3, 0xA9], [1]⟩, ⟨[0xC3, 0xA9, 0x61], [2]⟩,
          ⟨[0xC3, 0xAA], [3]⟩]))).1 = ⟨0, "[]:\t[01]\n[61]:\t[02]\n", ""⟩ ∧
      run .plain ["rocksdb"] = pure ⟨1, "", "Error: unknown db backend `rocksdb`\n"⟩ ∧
      run .plain ["sled"] =
        pure ⟨1, "", "Error: usage: kvdb-node <backend> <dir> [name] [prefix]\n"⟩ := by
  obtain ⟨hshown, hunknown, husage⟩ := run_shows_selected Packages.plain
  refine ⟨?_, ?_, ?_⟩
  · obtain ⟨-, hpart, -⟩ := hshown Disks.meaning Disks.lawful Log.silent_none
      (.ofContents (Path.resolve (World.pathOf "app" "data")) _) "data" "app" "é" (Disks.ready_ofContents _ _ _)
    rw [hpart, Disks.stored_ofContents]
    decide
  · rw [(hunknown "rocksdb" [] (by rintro (_ | _) <;> decide)).2]
    rfl
  · rw [(husage ["sled"] (by rintro _ ⟨⟩; exact ⟨.disk, rfl⟩) (.inl (by decide))).2]
    rfl

end CommandLine

end OrderedStore
