import OrderedStore.Json.Codec
import OrderedStore.Proofs.Json.Reading
import OrderedStore.Proofs.Json.Writing

/-!
# Laws of codecs

What is taken for granted of the package that reads and writes JSON.  What it writes is well-formed, and of
a well-formed text it reads the value, whichever way it is written.  A record is read member by member, or
item by item.

* `Json.Codec.Lawful` is what is taken for granted, `Json.Codec.ReadsPlainly` are the fields of which it is.
* `Json.Codec.strict_lawful` says that the strict codec is of this kind.
-/

namespace OrderedStore.Json.Codec

variable {α : Type}

/-- The field is a string, or a value of an enumeration. -/
def ReadsPlainly (codec : Codec) (field : Field α) : Prop :=
  (∃ update : String → α → α, field.read = fun json => (codec.readText json).map update) ∨
    ∃ (β : Type) (names : List (String × β)) (update : β → α → α),
      field.read = fun json => (codec.readName names json).map update

/-- What is written is a written form of the value.  A string is read as its text, and a value of an
enumeration by its name, which may also stand as the name of the only member of an object, without a value.
Of the members of an object, those that have the name of no field are skipped, one that has the name of a field
changes the record if it has a value for it, and it must not be given again; the items of an array are taken
for the fields in order.  What is not given is left at its default.

Texts are read for records of strings and names only.  What is skipped may be nested to any depth, but
nothing is taken for granted of values that are nested and read. -/
structure Lawful (codec : Codec) : Prop where
  writeText : ∀ text, Element (.string (some text.toList)) (codec.writeText text)
  writeName : ∀ name, Element (.string (some name.toList)) (codec.writeName name)
  writeRecord : ∀ fields : List (String × Json × List Char),
    (∀ field ∈ fields, Element field.2.1 field.2.2) →
      Element (.object (fields.map fun field => (some field.1.toList, field.2.1)))
        (codec.writeRecord (fields.map fun field => (field.1, field.2.2)))
  readText : ∀ {json text}, codec.readText json = some text ↔ json = .string (some text.toList)
  readName_string : ∀ {α : Type} (names : List (String × α)) (name : String),
    codec.readName names (.string (some name.toList)) = names.lookup name
  readName_object : ∀ {α : Type} (names : List (String × α)) (name : String),
    codec.readName names (.object [(some name.toList, .null)]) = names.lookup name
  readName_other : ∀ {α : Type} (names : List (String × α)) (json : Json),
    (∀ name, json ≠ .string (some name)) → (∀ name, json ≠ .object [(some name, .null)]) →
      codec.readName names json = none
  noMembers : ∀ {α : Type} (default : α) (fields : List (Field α)),
    codec.readRecord default fields (.object []) = some default
  skip : ∀ {α : Type} (default : α) (fields : List (Field α)) (name : List Char) (json : Json)
    (members : List NamedValue), (∀ field ∈ fields, field.name.toList ≠ name) →
      codec.readRecord default fields (.object ((some name, json) :: members)) =
        codec.readRecord default fields (.object members)
  again : ∀ {α : Type} (default : α) (fields : List (Field α)) (json : Json) (members : List NamedValue),
    ∀ field ∈ fields, some field.name.toList ∈ members.map Prod.fst →
      codec.readRecord default fields (.object ((some field.name.toList, json) :: members)) = none
  /-- The fields have different names, as those of a record do. -/
  take : ∀ {α : Type} (default : α) (fields : List (Field α)) (json : Json) (members : List NamedValue),
    (fields.map Field.name).Nodup → ∀ field ∈ fields, some field.name.toList ∉ members.map Prod.fst →
      codec.readRecord default fields (.object ((some field.name.toList, json) :: members)) =
        (field.read json).bind fun update => (codec.readRecord default fields (.object members)).map update
  noItems : ∀ {α : Type} (default : α) (fields : List (Field α)),
    codec.readRecord default fields (.array []) = some default
  takeItem : ∀ {α : Type} (default : α) (field : Field α) (fields : List (Field α)) (item : Json)
    (items : List Json), codec.readRecord default (field :: fields) (.array (item :: items)) =
      (field.read item).bind fun update => (codec.readRecord default fields (.array items)).map update
  excess : ∀ {α : Type} (default : α) (item : Json) (items : List Json),
    codec.readRecord default [] (.array (item :: items)) = none
  readFrom : ∀ {α : Type} (default : α) (fields : List (Field α)) {json : Json} {text : String},
    (∀ field ∈ fields, codec.ReadsPlainly field) → Element json text.toList →
      codec.readFrom (codec.readRecord default fields) text = codec.readRecord default fields json

/-! ### The strict codec -/

theorem members_writeMembers {field : String × Json × List Char} {fields : List (String × Json × List Char)}
    (h : ∀ field' ∈ field :: fields, Element field'.2.1 field'.2.2) :
    Members ((field :: fields).map fun field => (some field.1.toList, field.2.1))
      (writeMembers ((field :: fields).map fun field => (field.1, field.2.2))) := by
  induction fields generalizing field with
  | nil =>
    have hmember := Member.named blanks_nil (body_quote field.1.toList) blanks_nil (h field List.mem_cons_self)
    simpa [writeMembers, quote] using Members.last hmember
  | cons next fields ih =>
    obtain ⟨hfield, hfields⟩ := List.forall_mem_cons.1 h
    have hmember := Member.named blanks_nil (body_quote field.1.toList) blanks_nil hfield
    simpa [writeMembers, quote] using Members.more hmember (ih hfields)

theorem element_writeObject {fields : List (String × Json × List Char)}
    (h : ∀ field ∈ fields, Element field.2.1 field.2.2) :
    Element (.object (fields.map fun field => (some field.1.toList, field.2.1)))
      (writeObject (fields.map fun field => (field.1, field.2.2))) := by
  cases fields with
  | nil => exact element_of_value (.noMembers blanks_nil)
  | cons field fields => exact element_of_value (.members (members_writeMembers h))

theorem textOf?_eq_some {json : Json} {text : String} :
    textOf? json = some text ↔ json = .string (some text.toList) := by
  constructor
  · intro h
    match json, h with
    | .string (some written), h =>
      obtain rfl := Option.some.inj h
      rw [String.toList_ofList]
  · rintro rfl
    rw [textOf?, String.ofList_toList]

/-- Of fields with different names, the one of a name is found. -/
theorem find?_name {fields : List (Field α)} (h : (fields.map Field.name).Nodup) {field : Field α}
    (hfield : field ∈ fields) :
    fields.find? (fun other => other.name.toList = field.name.toList) = some field := by
  induction fields with
  | nil => cases hfield
  | cons first fields ih =>
    obtain ⟨hfirst, hrest⟩ := List.nodup_cons.1 h
    rcases List.mem_cons.1 hfield with rfl | hfield
    · rw [List.find?_cons, decide_eq_true rfl]
    · have hne : first.name.toList ≠ field.name.toList := fun heq =>
        hfirst (String.toList_injective heq ▸ List.mem_map_of_mem hfield)
      rw [List.find?_cons, decide_eq_false hne]
      exact ih hrest hfield

/-- The strict codec is what is taken for granted of the package. -/
theorem strict_lawful : strict.Lawful where
  writeText text := element_of_value (value_quote text.toList)
  writeName name := element_of_value (value_quote name.toList)
  writeRecord _ h := element_writeObject h
  readText := textOf?_eq_some
  readName_string names name := by
    show names.lookup (String.ofList name.toList) = _
    rw [String.ofList_toList]
  readName_object names name := by
    show names.lookup (String.ofList name.toList) = _
    rw [String.ofList_toList]
  readName_other names json hstring hobject := by
    show namedOf? names json = none
    unfold namedOf?
    split
    · exact absurd rfl (hstring _)
    · exact absurd rfl (hobject _)
    · rfl
  noMembers _ _ := rfl
  skip default fields name json members h := by
    have hnone : fields.find? (fun field => field.name.toList = name) = none :=
      List.find?_eq_none.2 fun field hfield => by simpa using h field hfield
    show readMembers default fields _ = _
    rw [readMembers, hnone]
    rfl
  again default fields json members field hfield hagain := by
    obtain ⟨found, hfound⟩ := Option.isSome_iff_exists.1 (List.find?_isSome
      (p := fun other : Field _ => decide (other.name.toList = field.name.toList)).2
        ⟨field, hfield, decide_eq_true rfl⟩)
    show readMembers default fields _ = _
    rw [readMembers, hfound]
    exact if_pos (List.contains_iff_mem.2 hagain)
  take default fields json members hnames field hfield hnew := by
    show readMembers default fields _ = _
    rw [readMembers, find?_name hnames hfield]
    rw [← List.contains_iff_mem] at hnew
    exact if_neg hnew
  noItems _ fields := by cases fields <;> rfl
  takeItem _ _ _ _ _ := rfl
  excess _ _ _ := rfl
  readFrom default fields json text _ h := by
    show (Json.read? text.toList).bind (recordOf? default fields) = _
    rw [read?_of_element h]
    rfl

end OrderedStore.Json.Codec
