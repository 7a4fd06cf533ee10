import Mathlib.Data.List.Nodup
import OrderedStore.Proofs.Json.Codec

/-!
# Records by their fields

A codec reads an object member by member.  If the fields of the record have different names and do not
get in each other's way, this is the same as to look for the members of each field in turn: the order of
the members does not matter, nor do those that have the name of no field.

* `Json.gather` looks for the members of each field.
* `Json.Codec.Lawful.readRecord_object` says that the codec does the same; this is the induction over the
  members.
* `Json.isSome_gather`, `Json.gather_perm` and `Json.of_gather` say when a record is read, on what it depends
  and what its fields are.
* `Json.Codec.Lawful.readRecord_array` reduces arrays to objects.
-/

namespace OrderedStore.Json

variable {α β : Type} {codec : Codec}

/-- The values that are given under a name. -/
def valuesNamed (name : String) (members : List NamedValue) : List Json :=
  (members.filter fun member => member.1 = some name.toList).map Prod.snd

/-- How the members change a field: not at all if none has its name; two are too many. -/
def Field.updateOf? (field : Field α) (members : List NamedValue) : Option (α → α) :=
  match valuesNamed field.name members with
  | [] => some id
  | [json] => field.read json
  | _ => none

/-- The record in which each field is as the members say. -/
def gather (default : α) : List (Field α) → List NamedValue → Option α
  | [], _ => some default
  | field :: fields, members =>
    (field.updateOf? members).bind fun update => (gather default fields members).map update

/-- It does not matter which of two fields is changed first. -/
def Field.Independent (first second : Field α) : Prop :=
  ∀ ⦃json json' update update'⦄, first.read json = some update → second.read json' = some update' →
    ∀ value, update (update' value) = update' (update value)

/-- The names of the fields are different, and it does not matter which of them is changed first. -/
structure Field.Separate (fields : List (Field α)) : Prop where
  nodup : (fields.map Field.name).Nodup
  independent : fields.Pairwise Field.Independent

/-- Different names are written differently. -/
theorem eq_of_written {name other : String} (h : some name.toList = some other.toList) : name = other :=
  String.toList_injective (Option.some.inj h)

/-! ### Values of a name -/

section Values

variable {name : String} {members others : List NamedValue}

theorem mem_valuesNamed {json : Json} :
    json ∈ valuesNamed name members ↔ (some name.toList, json) ∈ members := by
  simp [valuesNamed]

theorem length_valuesNamed :
    (valuesNamed name members).length = (members.map Prod.fst).count (some name.toList) := by
  rw [valuesNamed, List.length_map, List.count, List.countP_map, List.countP_eq_length_filter]
  congr 2
  funext member
  exact (beq_eq_decide _ _).symm

theorem valuesNamed_cons_of_ne {written : Option (List Char)} (h : written ≠ some name.toList) (json : Json)
    (members : List NamedValue) :
    valuesNamed name ((written, json) :: members) = valuesNamed name members := by
  rw [valuesNamed, valuesNamed, List.filter_cons_of_neg (by simpa using h)]

theorem valuesNamed_cons_self (json : Json) (members : List NamedValue) :
    valuesNamed name ((some name.toList, json) :: members) = json :: valuesNamed name members := by
  rw [valuesNamed, valuesNamed, List.filter_cons_of_pos (by simp), List.map_cons]

theorem valuesNamed_eq_nil (h : some name.toList ∉ members.map Prod.fst) : valuesNamed name members = [] := by
  rw [← List.count_eq_zero, ← length_valuesNamed] at h
  exact List.length_eq_zero_iff.1 h

end Values

/-! ### Changes of a field -/

section Updates

variable {field : Field α} {members others : List NamedValue}

theorem updateOf?_cons_of_ne {written : Option (List Char)} (h : written ≠ some field.name.toList) (json : Json)
    (members : List NamedValue) : field.updateOf? ((written, json) :: members) = field.updateOf? members := by
  rw [Field.updateOf?, Field.updateOf?, valuesNamed_cons_of_ne h]

theorem updateOf?_of_notMem (h : some field.name.toList ∉ members.map Prod.fst) :
    field.updateOf? members = some id := by
  rw [Field.updateOf?, valuesNamed_eq_nil h]

theorem updateOf?_cons_self (h : some field.name.toList ∉ members.map Prod.fst) (json : Json) :
    field.updateOf? ((some field.name.toList, json) :: members) = field.read json := by
  rw [Field.updateOf?, valuesNamed_cons_self, valuesNamed_eq_nil h]

/-- A field that is given again is refused. -/
theorem updateOf?_again (h : some field.name.toList ∈ members.map Prod.fst) (json : Json) :
    field.updateOf? ((some field.name.toList, json) :: members) = none := by
  have hpos : 0 < (valuesNamed field.name members).length := by
    rw [length_valuesNamed]
    exact List.count_pos_iff.2 h
  rw [Field.updateOf?, valuesNamed_cons_self]
  cases hvalues : valuesNamed field.name members with
  | nil => rw [hvalues] at hpos; cases hpos
  | cons json' values => rfl

theorem isSome_updateOf? :
    (field.updateOf? members).isSome ↔ (members.map Prod.fst).count (some field.name.toList) ≤ 1 ∧
      ∀ json, (some field.name.toList, json) ∈ members → (field.read json).isSome := by
  simp only [← length_valuesNamed, ← mem_valuesNamed, Field.updateOf?]
  match valuesNamed field.name members with
  | [] => simp
  | [json] => simp
  | _ :: _ :: _ => simp

/-- With one value there is no order, and more are refused. -/
theorem updateOf?_perm (h : (valuesNamed field.name members).Perm (valuesNamed field.name others)) :
    field.updateOf? members = field.updateOf? others := by
  rw [Field.updateOf?, Field.updateOf?]
  match valuesNamed field.name members, valuesNamed field.name others, h with
  | [], _, h => rw [List.nil_perm.1 h]
  | [value], _, h => rw [List.singleton_perm.1 h]
  | _ :: _ :: _, [], h => exact absurd h.length_eq (by simp)
  | _ :: _ :: _, [_], h => exact absurd h.length_eq (by simp)
  | _ :: _ :: _, _ :: _ :: _, _ => rfl

/-- A change is that of a value that is given, or none. -/
theorem updateOf?_eq_some {update : α → α} (h : field.updateOf? members = some update) :
    (valuesNamed field.name members = [] ∧ update = id) ∨
      ∃ json, valuesNamed field.name members = [json] ∧ field.read json = some update := by
  rw [Field.updateOf?] at h
  match hvalues : valuesNamed field.name members, h with
  | [], h => exact .inl ⟨rfl, (Option.some.inj h).symm⟩
  | [json], h => exact .inr ⟨json, rfl, h⟩

/-- Changes of independent fields can be made in any order. -/
theorem Field.Independent.updateOf? {other : Field α} (h : field.Independent other) {json : Json}
    {update update' : α → α} (hupdate : field.updateOf? members = some update)
    (hother : other.read json = some update') (value : α) :
    update (update' value) = update' (update value) := by
  rcases updateOf?_eq_some hupdate with ⟨-, rfl⟩ | ⟨json', -, hread⟩
  · rfl
  · exact h hread hother value

end Updates

/-! ### Member by member -/

section Gather

variable {default : α} {fields : List (Field α)} {members others : List NamedValue}

/-- A member with the name of no field is ignored. -/
theorem gather_skip {written : Option (List Char)} (h : ∀ field ∈ fields, written ≠ some field.name.toList)
    (json : Json) : gather default fields ((written, json) :: members) = gather default fields members := by
  induction fields with
  | nil => rfl
  | cons field fields ih =>
    obtain ⟨hfield, hfields⟩ := List.forall_mem_cons.1 h
    rw [gather, gather, updateOf?_cons_of_ne hfield, ih hfields]

theorem gather_again {field : Field α} (hfield : field ∈ fields)
    (hagain : some field.name.toList ∈ members.map Prod.fst) (json : Json) :
    gather default fields ((some field.name.toList, json) :: members) = none := by
  induction fields with
  | nil => cases hfield
  | cons first fields ih =>
    rw [gather]
    rcases List.mem_cons.1 hfield with rfl | hfield
    · rw [updateOf?_again hagain, Option.bind_none]
    · rw [ih hfield]
      cases first.updateOf? ((some field.name.toList, json) :: members) <;> rfl

/-- A member with the name of a field changes the record that the other members make. -/
theorem gather_take (h : Field.Separate fields) {field : Field α} (hfield : field ∈ fields)
    (hnew : some field.name.toList ∉ members.map Prod.fst) (json : Json) :
    gather default fields ((some field.name.toList, json) :: members) =
      (field.read json).bind fun update => (gather default fields members).map update := by
  induction fields with
  | nil => cases hfield
  | cons first fields ih =>
    obtain ⟨hfirst, hnodup⟩ := List.nodup_cons.1 h.nodup
    obtain ⟨hfirst', hpairwise⟩ := List.pairwise_cons.1 h.independent
    rw [gather, gather]
    rcases List.mem_cons.1 hfield with rfl | hfield
    · have hskip : ∀ other ∈ fields, some field.name.toList ≠ some other.name.toList :=
        fun other hother heq => hfirst (eq_of_written heq ▸ List.mem_map_of_mem hother)
      rw [updateOf?_cons_self hnew, updateOf?_of_notMem hnew, gather_skip hskip]
      simp
    · have hne : some field.name.toList ≠ some first.name.toList := fun heq =>
        hfirst (eq_of_written heq ▸ List.mem_map_of_mem hfield)
      rw [updateOf?_cons_of_ne hne, ih ⟨hnodup, hpairwise⟩ hfield]
      -- The change of the field is moved before that of the first one.
      cases hupdate : first.updateOf? members with
      | none => cases field.read json <;> rfl
      | some update =>
        cases hread : field.read json with
        | none => rfl
        | some update' =>
          cases gather default fields members with
          | none => rfl
          | some value => exact congrArg some ((hfirst' field hfield).updateOf? hupdate hread value)

/-- **A record is read field by field.**  The names of the members have to be proper strings. -/
theorem Codec.Lawful.readRecord_object (h : codec.Lawful) (hfields : Field.Separate fields)
    (hproper : ∀ member ∈ members, member.1.isSome = true) :
    codec.readRecord default fields (.object members) = gather default fields members := by
  induction members with
  | nil =>
    have hnone : ∀ fields : List (Field α), gather default fields [] = some default := by
      intro fields
      induction fields with
      | nil => rfl
      | cons field fields ih =>
        rw [gather, ih]
        rfl
    rw [h.noMembers, hnone]
  | cons member members ih =>
    obtain ⟨hname, hrest⟩ := List.forall_mem_cons.1 hproper
    obtain ⟨_ | name, json⟩ := member
    · cases hname
    · by_cases hknown : ∃ field ∈ fields, field.name.toList = name
      · obtain ⟨field, hfield, rfl⟩ := hknown
        by_cases hagain : some field.name.toList ∈ members.map Prod.fst
        · rw [h.again _ _ _ _ field hfield hagain, gather_again hfield hagain]
        · rw [h.take _ _ _ _ hfields.nodup field hfield hagain, ih hrest, gather_take hfields hfield hagain]
      · have hskip : ∀ field ∈ fields, field.name.toList ≠ name := fun field hfield heq =>
          hknown ⟨field, hfield, heq⟩
        rw [h.skip _ _ _ _ _ hskip, ih hrest]
        exact (gather_skip (fun field hfield heq => hskip field hfield (Option.some.inj heq).symm) json).symm

/-! ### What is read -/

/-- A record is read if no field is given twice, and each value that is given for a field is one of its
values. -/
theorem isSome_gather :
    (gather default fields members).isSome ↔ ∀ field ∈ fields,
      (members.map Prod.fst).count (some field.name.toList) ≤ 1 ∧
        ∀ json, (some field.name.toList, json) ∈ members → (field.read json).isSome := by
  induction fields with
  | nil => simp [gather]
  | cons field fields ih =>
    rw [List.forall_mem_cons, ← isSome_updateOf?, ← ih, gather]
    cases field.updateOf? members with
    | none => simp
    | some update => simp

/-- Whether a member has one of the names. -/
def isKnown (names : List String) (member : NamedValue) : Bool :=
  names.any fun name => member.1 = some name.toList

/-- Unknown members do not count. -/
theorem valuesNamed_filter_isKnown {names : List String} {name : String} (hname : name ∈ names) :
    valuesNamed name (members.filter (isKnown names)) = valuesNamed name members := by
  rw [valuesNamed, valuesNamed, List.filter_filter]
  congr 1
  refine List.filter_congr fun member _ => ?_
  rw [Bool.and_eq_left_iff_imp]
  intro hmember
  exact List.any_eq_true.2 ⟨name, hname, hmember⟩

/-- Neither the order of the members nor those without the name of a field make a difference. -/
theorem gather_perm
    (h : (members.filter (isKnown (fields.map Field.name))).Perm
      (others.filter (isKnown (fields.map Field.name)))) :
    gather default fields members = gather default fields others := by
  have hupdate : ∀ field ∈ fields, field.updateOf? members = field.updateOf? others := fun field hfield => by
    have hname : field.name ∈ fields.map Field.name := List.mem_map_of_mem hfield
    have hvalues : (valuesNamed field.name (members.filter (isKnown (fields.map Field.name)))).Perm
        (valuesNamed field.name (others.filter (isKnown (fields.map Field.name)))) := (h.filter _).map _
    rw [valuesNamed_filter_isKnown hname, valuesNamed_filter_isKnown hname] at hvalues
    exact updateOf?_perm hvalues
  clear h
  induction fields with
  | nil => rfl
  | cons field fields ih =>
    obtain ⟨hfield, hfields⟩ := List.forall_mem_cons.1 hupdate
    rw [gather, gather, hfield, ih hfields]

/-- The field is the only one that changes a part of the record: to what is written for it. -/
structure Field.Owns (field : Field α) (fields : List (Field α)) (part : α → β)
    (IsWritten : Json → β → Prop) : Prop where
  mem : field ∈ fields
  writes : ∀ {json update}, field.read json = some update → ∃ value, IsWritten json value ∧
    ∀ record, part (update record) = value
  keeps : ∀ other ∈ fields, other.name ≠ field.name → ∀ {json update}, other.read json = some update →
    ∀ record, part (update record) = part record

theorem part_of_updateOf? {field : Field α} {part : α → β}
    (h : ∀ {json update}, field.read json = some update → ∀ record, part (update record) = part record)
    {update : α → α} (hupdate : field.updateOf? members = some update) (record : α) :
    part (update record) = part record := by
  rcases updateOf?_eq_some hupdate with ⟨-, rfl⟩ | ⟨json, -, hread⟩
  · rfl
  · exact h hread record

theorem part_of_gather {part : α → β}
    (h : ∀ field ∈ fields, ∀ {json update}, field.read json = some update →
      ∀ record, part (update record) = part record) {record : α}
    (hgather : gather default fields members = some record) : part record = part default := by
  induction fields generalizing record with
  | nil => exact congrArg part (Option.some.inj hgather).symm
  | cons field fields ih =>
    obtain ⟨update, hupdate, hmapped⟩ := Option.bind_eq_some_iff.1 hgather
    obtain ⟨rest, hrest, rfl⟩ := Option.map_eq_some_iff.1 hmapped
    obtain ⟨hfield, hfields⟩ := List.forall_mem_cons.1 h
    rw [part_of_updateOf? hfield hupdate, ih hfields hrest]

/-- The part of a field is what is written for it, or that of the default if nothing is. -/
theorem of_gather (hnodup : (fields.map Field.name).Nodup) {field : Field α} {part : α → β}
    {IsWritten : Json → β → Prop} (h : field.Owns fields part IsWritten) {record : α}
    (hgather : gather default fields members = some record) :
    (∀ json, (some field.name.toList, json) ∈ members → IsWritten json (part record)) ∧
      ((∀ json, (some field.name.toList, json) ∉ members) → part record = part default) := by
  obtain ⟨hmem, hwrites, hkeeps⟩ := h
  simp only [← mem_valuesNamed]
  induction fields generalizing record with
  | nil => cases hmem
  | cons first fields ih =>
    obtain ⟨hfirst, hnodup⟩ := List.nodup_cons.1 hnodup
    obtain ⟨update, hupdate, hmapped⟩ := Option.bind_eq_some_iff.1 hgather
    obtain ⟨rest, hrest, rfl⟩ := Option.map_eq_some_iff.1 hmapped
    obtain ⟨hkeepsFirst, hkeepsRest⟩ := List.forall_mem_cons.1 hkeeps
    rcases List.mem_cons.1 hmem with rfl | hmem
    · -- The fields behind this one have other names.
      have hrestKeeps := part_of_gather (fun other hother => hkeepsRest other hother
        fun heq => hfirst (heq ▸ List.mem_map_of_mem hother)) hrest
      rcases updateOf?_eq_some hupdate with ⟨hvalues, rfl⟩ | ⟨json, hvalues, hread⟩
      · rw [hvalues]
        exact ⟨fun _ h => (List.not_mem_nil h).elim, fun _ => hrestKeeps⟩
      · obtain ⟨value, hwritten, hpart⟩ := hwrites hread
        rw [hvalues, hpart]
        refine ⟨fun other hother => ?_, fun hnone => absurd List.mem_cons_self (hnone json)⟩
        rwa [List.mem_singleton.1 hother]
    · have hne : first.name ≠ field.name := fun heq => hfirst (heq ▸ List.mem_map_of_mem hmem)
      rw [part_of_updateOf? (hkeepsFirst hne) hupdate]
      exact ih hnodup hrest hmem hkeepsRest

end Gather

/-! ### Arrays -/

/-- The members that give items these names. -/
def positional (names : List String) (items : List Json) : List NamedValue :=
  (names.map fun name => some name.toList).zip items

section Positional

variable {names : List String} {items : List Json}

theorem mem_names_of_mem_positional {written : Option (List Char)}
    (h : written ∈ (positional names items).map Prod.fst) : ∃ name ∈ names, written = some name.toList := by
  obtain ⟨⟨_, json⟩, hmember, rfl⟩ := List.mem_map.1 h
  obtain ⟨name, hname, heq⟩ := List.mem_map.1 (List.of_mem_zip hmember).1
  exact ⟨name, hname, heq.symm⟩

theorem isSome_name_positional : ∀ member ∈ positional names items, member.1.isSome = true := by
  intro member hmember
  obtain ⟨name, -, hname⟩ := mem_names_of_mem_positional (List.mem_map_of_mem hmember)
  rw [hname]
  rfl

/-- The items that have a name are given under it, and nothing else is. -/
theorem mem_positional (hnames : names.Nodup) {i : ℕ} {name : String} (hname : names[i]? = some name)
    {json : Json} : (some name.toList, json) ∈ positional names items ↔ json ∈ items[i]? := by
  induction names generalizing items i with
  | nil => simp at hname
  | cons first names ih =>
    obtain ⟨hfirst, hnames⟩ := List.nodup_cons.1 hnames
    cases items with
    | nil => simp [positional]
    | cons item items =>
      have hcons : positional (first :: names) (item :: items) =
          (some first.toList, item) :: positional names items := rfl
      rw [hcons, List.mem_cons]
      cases i with
      | zero =>
        obtain rfl : first = name := Option.some.inj hname
        have hrest : (some first.toList, json) ∉ positional names items := fun hmember => by
          obtain ⟨other, hother, heq⟩ := mem_names_of_mem_positional (List.mem_map_of_mem hmember)
          exact hfirst (eq_of_written heq ▸ hother)
        simp [hrest, eq_comm]
      | succ i =>
        have hne : name ≠ first := fun heq => hfirst (heq ▸ List.mem_of_getElem? hname)
        have hne' : (some name.toList, json) ≠ (some first.toList, item) := fun heq =>
          hne (eq_of_written (congrArg Prod.fst heq))
        rw [or_iff_right hne']
        exact ih hnames hname

/-- No name is given twice. -/
theorem count_positional_le_one (hnames : names.Nodup) (name : String) :
    ((positional names items).map Prod.fst).count (some name.toList) ≤ 1 := by
  have hnodup : (names.map fun name => some name.toList).Nodup :=
    hnames.map fun _ _ => eq_of_written
  have hsublist : ((positional names items).map Prod.fst).Sublist (names.map fun name => some name.toList) := by
    rw [positional, List.zip_eq_zip_take_min, List.map_fst_zip (by simp)]
    exact List.take_sublist _ _
  exact List.nodup_iff_count_le_one.1 (hnodup.sublist hsublist) _

end Positional

section Items

variable {default : α}

theorem Codec.Lawful.readRecord_nil (h : codec.Lawful) (fields : List (Field α)) :
    codec.readRecord default fields (.array []) =
      if ([] : List Json).length ≤ fields.length then
        codec.readRecord default fields (.object (positional (fields.map Field.name) []))
      else none := by
  have hlength : ([] : List Json).length ≤ fields.length := Nat.zero_le _
  rw [if_pos hlength, positional, List.zip_nil_right, h.noItems, h.noMembers]

/-- **An array is read like the object of its items**, unless it has too many. -/
theorem Codec.Lawful.readRecord_array (h : codec.Lawful) {fields : List (Field α)}
    (hfields : Field.Separate fields) (items : List Json) :
    codec.readRecord default fields (.array items) =
      if items.length ≤ fields.length then
        codec.readRecord default fields (.object (positional (fields.map Field.name) items))
      else none := by
  induction fields generalizing items with
  | nil =>
    cases items with
    | nil => exact h.readRecord_nil []
    | cons item items => rw [h.excess, if_neg (by simp)]
  | cons field fields ih =>
    obtain ⟨hfield, hnodup⟩ := List.nodup_cons.1 hfields.nodup
    obtain ⟨-, hpairwise⟩ := List.pairwise_cons.1 hfields.independent
    cases items with
    | nil => exact h.readRecord_nil (field :: fields)
    | cons item items =>
      have hnew : some field.name.toList ∉ (positional (fields.map Field.name) items).map Prod.fst :=
        fun hmem => by
          obtain ⟨name, hname, heq⟩ := mem_names_of_mem_positional hmem
          exact hfield (eq_of_written heq ▸ hname)
      -- The first field is not given by the items behind its own.
      have hrest : codec.readRecord default (field :: fields)
            (.object (positional (fields.map Field.name) items)) =
          codec.readRecord default fields (.object (positional (fields.map Field.name) items)) := by
        rw [h.readRecord_object hfields isSome_name_positional,
          h.readRecord_object ⟨hnodup, hpairwise⟩ isSome_name_positional, gather, updateOf?_of_notMem hnew]
        simp
      have hfirst := h.take default (field :: fields) item (positional (fields.map Field.name) items)
        hfields.nodup field List.mem_cons_self hnew
      rw [hrest] at hfirst
      rw [h.takeItem, ih ⟨hnodup, hpairwise⟩]
      by_cases hlength : items.length ≤ fields.length
      · have hlength' : (item :: items).length ≤ (field :: fields).length := Nat.succ_le_succ hlength
        rw [if_pos hlength, if_pos hlength']
        exact hfirst.symm
      · have hlength' : ¬(item :: items).length ≤ (field :: fields).length := fun hle =>
          hlength (Nat.le_of_succ_le_succ hle)
        rw [if_neg hlength, if_neg hlength']
        cases field.read item <;> rfl

end Items

end OrderedStore.Json
