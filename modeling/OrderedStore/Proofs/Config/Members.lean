import OrderedStore.Proofs.Config.RoundTrip

/-!
# Configurations by their members

A configuration is read from the members of an object that have the name of a field; the others are
ignored.  An array is read like the object in which its items have the names of the fields, in order.
The codec is assumed to be lawful.

* `Config.Acceptable` says which members describe a configuration, `Config.Describes` which
  configuration it is.
* `Config.isSome_gather`, `Config.describes_of_gather` and `Json.gather_perm` are the three facts about
  members, `Config.acceptable_positional` is about those that items stand for.
* `Config.read?_by_members` is the result about texts.
-/

namespace OrderedStore.Config

open Json (NamedValue gather isKnown positional)

variable {codec : Json.Codec}

/-- The names of the fields in their order. -/
def fieldNames : List String := ["name", "backend", "dir"]

theorem map_name_fields (codec : Json.Codec) : (fields codec).map Json.Field.name = fieldNames := rfl

theorem nodup_fieldNames : fieldNames.Nodup := by decide

/-! ### What is accepted -/

/-- No field is given twice, and each field that is given has a value of its kind. -/
structure Acceptable (members : List NamedValue) : Prop where
  once : ∀ name ∈ fieldNames, (members.map Prod.fst).count (some name.toList) ≤ 1
  name : ∀ json, (some "name".toList, json) ∈ members → ∃ text, IsText json text
  backend : ∀ json, (some "backend".toList, json) ∈ members → ∃ backend, IsBackend json backend
  dir : ∀ json, (some "dir".toList, json) ∈ members → ∃ text, IsText json text

/-- There are items for the fields only, each of the kind of its field. -/
structure AcceptableItems (items : List Json) : Prop where
  length_le : items.length ≤ fieldNames.length
  name : ∀ json ∈ items[0]?, ∃ text, IsText json text
  backend : ∀ json ∈ items[1]?, ∃ backend, IsBackend json backend
  dir : ∀ json ∈ items[2]?, ∃ text, IsText json text

/-- The field has the value that is written for it, and the default if nothing is. -/
structure HasValue {α : Type} (IsWritten : Json → α → Prop) (missing : α) (name : String)
    (members : List NamedValue) (value : α) : Prop where
  written : ∀ json, (some name.toList, json) ∈ members → IsWritten json value
  missing : (∀ json, (some name.toList, json) ∉ members) → value = missing

/-- Every field of the configuration has the value that is written for it, or its default. -/
structure Describes (members : List NamedValue) (config : Config) : Prop where
  name : HasValue IsText default.name "name" members config.name
  backend : HasValue IsBackend default.backend "backend" members config.backend
  dir : HasValue IsText default.dir "dir" members config.dir

/-! ### Objects -/

section Objects

variable {members : List NamedValue}

theorem isSome_gather (h : codec.Lawful) :
    (gather default (fields codec) members).isSome ↔ Acceptable members := by
  rw [Json.isSome_gather, fields]
  simp only [List.forall_mem_cons, isSome_nameField h, isSome_backendField h, isSome_dirField h]
  constructor
  · rintro ⟨⟨hname, hname'⟩, ⟨hbackend, hbackend'⟩, ⟨hdir, hdir'⟩, -⟩
    refine ⟨?_, hname', hbackend', hdir'⟩
    simp only [fieldNames, List.forall_mem_cons]
    exact ⟨hname, hbackend, hdir, by simp⟩
  · rintro ⟨honce, hname, hbackend, hdir⟩
    exact ⟨⟨honce "name" (by decide), hname⟩, ⟨honce "backend" (by decide), hbackend⟩,
      ⟨honce "dir" (by decide), hdir⟩, by simp⟩

/-- A field that is a part of its own has the value that is written for it. -/
theorem hasValue_of_gather {α : Type} {field : Json.Field Config} {part : Config → α}
    {IsWritten : Json → α → Prop} (hfield : field.Owns (fields codec) part IsWritten) {config : Config}
    (hread : gather default (fields codec) members = some config) :
    HasValue IsWritten (part default) field.name members (part config) := by
  obtain ⟨hwritten, hmissing⟩ := Json.of_gather (separate_fields codec).nodup hfield hread
  exact ⟨hwritten, hmissing⟩

theorem describes_of_gather (h : codec.Lawful) {config : Config}
    (hread : gather default (fields codec) members = some config) : Describes members config :=
  ⟨hasValue_of_gather (owns_name h) hread, hasValue_of_gather (owns_backend h) hread,
    hasValue_of_gather (owns_dir h) hread⟩

end Objects

/-! ### Arrays -/

/-- The members that items stand for are acceptable if each item is of the kind of its field. -/
theorem acceptable_positional {items : List Json} :
    items.length ≤ fieldNames.length ∧ Acceptable (positional fieldNames items) ↔ AcceptableItems items := by
  have hname : ∀ json, (some "name".toList, json) ∈ positional fieldNames items ↔ json ∈ items[0]? :=
    fun _ => Json.mem_positional nodup_fieldNames rfl
  have hbackend : ∀ json, (some "backend".toList, json) ∈ positional fieldNames items ↔ json ∈ items[1]? :=
    fun _ => Json.mem_positional nodup_fieldNames rfl
  have hdir : ∀ json, (some "dir".toList, json) ∈ positional fieldNames items ↔ json ∈ items[2]? :=
    fun _ => Json.mem_positional nodup_fieldNames rfl
  constructor
  · rintro ⟨hlength, -, hname', hbackend', hdir'⟩
    exact ⟨hlength, fun json hjson => hname' json ((hname json).2 hjson),
      fun json hjson => hbackend' json ((hbackend json).2 hjson),
      fun json hjson => hdir' json ((hdir json).2 hjson)⟩
  · rintro ⟨hlength, hname', hbackend', hdir'⟩
    exact ⟨hlength, fun name _ => Json.count_positional_le_one nodup_fieldNames name,
      fun json hjson => hname' json ((hname json).1 hjson),
      fun json hjson => hbackend' json ((hbackend json).1 hjson),
      fun json hjson => hdir' json ((hdir json).1 hjson)⟩

/-! ### Texts -/

/-- The names of all members are proper strings. -/
def Proper (members : List NamedValue) : Prop := ∀ member ∈ members, member.1.isSome = true

/-- The names in a well-formed text are proper strings. -/
theorem proper_of_members {members : List NamedValue} {written : List Char} :
    Json.Members members written → Proper members
  | .last (.named _ _ _ _) => by simp [Proper]
  | .more (.named _ _ _ _) hothers => by simpa [Proper] using proper_of_members hothers

theorem proper_of_element {members : List NamedValue} {written : List Char}
    (h : Json.Element (.object members) written) : Proper members := by
  cases h with
  | spaced _ h _ =>
    cases h with
    | noMembers _ => simp [Proper]
    | members h => exact proper_of_members h

theorem read?_object (h : codec.Lawful) {members : List NamedValue} {text : String}
    (htext : Json.Element (.object members) text.toList) :
    read? codec text = gather default (fields codec) members := by
  rw [read?_eq_readRecord h htext, h.readRecord_object (separate_fields codec) (proper_of_element htext)]

theorem read?_array (h : codec.Lawful) {items : List Json} {text : String}
    (htext : Json.Element (.array items) text.toList) :
    read? codec text = if items.length ≤ fieldNames.length then
      gather default (fields codec) (positional fieldNames items) else none := by
  rw [read?_eq_readRecord h htext, h.readRecord_array (separate_fields codec),
    h.readRecord_object (separate_fields codec) Json.isSome_name_positional]
  rfl

/-- A well-formed object is read by the members that have the name of a field, and by nothing else.  It
is accepted if no field is given twice and those that are given have values of their kinds; each field
then has the value that is written, or its default.  A well-formed array is accepted if its items have
the kinds of the fields, in order, and is read like the object in which they have their names. -/
theorem read?_by_members (hcodec : codec.Lawful) {members : List NamedValue} {items : List Json}
    {object array : String} (hobject : Json.Element (.object members) object.toList)
    (harray : Json.Element (.array items) array.toList) :
    ((read? codec object).isSome ↔ Acceptable members) ∧
      (∀ config, read? codec object = some config → Describes members config) ∧
      (∀ others other, Json.Element (.object others) other.toList →
        (members.filter (isKnown fieldNames)).Perm (others.filter (isKnown fieldNames)) →
          read? codec other = read? codec object) ∧
      ((read? codec array).isSome ↔ AcceptableItems items) ∧
      (∀ config, read? codec array = some config → Describes (positional fieldNames items) config) ∧
      (∀ other, Json.Element (.object (positional fieldNames items)) other.toList →
        items.length ≤ fieldNames.length → read? codec array = read? codec other) := by
  refine ⟨?_, ?_, ?_, ?_, ?_, ?_⟩
  · rw [read?_object hcodec hobject]
    exact isSome_gather hcodec
  · rw [read?_object hcodec hobject]
    exact fun config hread => describes_of_gather hcodec hread
  · intro others other hother hperm
    rw [← map_name_fields codec] at hperm
    rw [read?_object hcodec hobject, read?_object hcodec hother, Json.gather_perm hperm]
  · rw [read?_array hcodec harray, ← acceptable_positional]
    split_ifs with hlength
    · rw [isSome_gather hcodec, and_iff_right hlength]
    · exact iff_of_false (by simp) fun h => hlength h.1
  · intro config hread
    rw [read?_array hcodec harray] at hread
    split_ifs at hread
    exact describes_of_gather hcodec hread
  · intro other hother hlength
    rw [read?_array hcodec harray, read?_object hcodec hother, if_pos hlength]

/-- Members of which two are unknown, with a field between them. -/
def scattered : List NamedValue :=
  [(some "x".toList, .array [.number ['0'], .object []]),
    (some "backend".toList, .object [(some "sled".toList, .null)]),
    (some "x".toList, .null), (some "name".toList, .string (some "a".toList))]

/-- A text of these members, with blanks and an escaped name. -/
def scatteredText : String :=
  "\x7b\"x\":[0,\x7b \x7d],\"backend\" :\x7b\"sled\":null\x7d,\"x\":null,\"n\\u0061me\":\"a\"\x7d"

theorem value_sled :
    Json.Value (.object [(some "sled".toList, .null)]) "\x7b\"sled\":null\x7d".toList :=
  .members (.last (.named Json.blanks_nil (Json.body_quote "sled".toList) Json.blanks_nil
    (Json.element_of_value .null)))

theorem element_scattered : Json.Element (.object scattered) scatteredText.toList := by
  have hblank : Json.Blanks [' '] := by simp [Json.Blanks]
  have hx := Json.body_quote "x".toList
  have hzero : Json.IsHex '0' 0 := Json.isHex_hexDigit (by decide)
  have hsix : Json.IsHex '6' 6 := Json.isHex_hexDigit (by decide)
  have hone : Json.IsHex '1' 1 := Json.isHex_hexDigit (by decide)
  have hname : Json.Body "name".toList "n\\u0061me".toList :=
    Json.body_quoteChar 'n'
      (.code (.digits hzero hzero hsix hone) (.inl (by decide)) (Json.body_quote "me".toList))
  have hitems : Json.Value (.array [.number ['0'], .object []]) "[0,\x7b \x7d]".toList :=
    .items (.more (Json.element_of_value (.number (.unsigned (.inl rfl) (.inl rfl) (.inl rfl))))
      (.last (Json.element_of_value (.noMembers hblank))))
  have hmembers := Json.Members.more
    (.named Json.blanks_nil hx Json.blanks_nil (Json.element_of_value hitems))
    (.more (.named Json.blanks_nil (Json.body_quote "backend".toList) hblank (Json.element_of_value value_sled))
      (.more (.named Json.blanks_nil hx Json.blanks_nil (Json.element_of_value .null))
        (.last (.named Json.blanks_nil hname Json.blanks_nil
          (Json.element_of_value (Json.value_quote "a".toList))))))
  exact Json.element_of_value (.members hmembers)

/-- Name and backend alone, as items and as members. -/
theorem read?_by_members_scattered :
    (∃ config, read? .strict scatteredText = some config ∧ Describes scattered config) ∧
      (read? .strict "[\"a\",\x7b\"sled\":null\x7d]").isSome ∧
      read? .strict "[\"a\",\x7b\"sled\":null\x7d]" = read? .strict scatteredText := by
  have hname := Json.element_of_value (Json.value_quote "a".toList)
  have hbackend := Json.element_of_value value_sled
  have harray : Json.Element (.array [.string (some "a".toList), .object [(some "sled".toList, .null)]])
      "[\"a\",\x7b\"sled\":null\x7d]".toList :=
    Json.element_of_value (.items (.more hname (.last hbackend)))
  have hnamed : Json.Element
      (.object (positional fieldNames [.string (some "a".toList), .object [(some "sled".toList, .null)]]))
      "\x7b\"name\":\"a\",\"backend\":\x7b\"sled\":null\x7d\x7d".toList :=
    Json.element_of_value (.members
      (.more (.named Json.blanks_nil (Json.body_quote "name".toList) Json.blanks_nil hname)
        (.last (.named Json.blanks_nil (Json.body_quote "backend".toList) Json.blanks_nil hbackend))))
  obtain ⟨haccepted, hdescribes, hperm, -, -, hpositional⟩ :=
    read?_by_members Json.Codec.strict_lawful element_scattered harray
  have hacceptable : Acceptable scattered := by
    refine ⟨by decide, fun json h => ⟨"a", ?_⟩, fun json h => ⟨.disk, .inr ?_⟩, fun json h => ?_⟩
    · simpa [scattered, IsText] using h
    · simpa [scattered, Backend.name] using h
    · simp [scattered] at h
  have hequal : read? .strict "\x7b\"name\":\"a\",\"backend\":\x7b\"sled\":null\x7d\x7d" =
      read? .strict scatteredText :=
    hperm _ _ hnamed (.swap _ _ _)
  have hsame := (hpositional _ hnamed (by decide)).trans hequal
  obtain ⟨config, hconfig⟩ := Option.isSome_iff_exists.1 (haccepted.2 hacceptable)
  refine ⟨⟨config, hconfig, hdescribes config hconfig⟩, ?_, hsame⟩
  rw [hsame, hconfig]
  rfl

end OrderedStore.Config
