import OrderedStore.Config
import OrderedStore.Proofs.Json.Records

/-!
# Fields of configurations

How the fields of a configuration are read by a lawful codec, and that each is a part of its own.

* `Config.separate_fields` is what records are required to be in order to be read field by field.
* `Config.owns_name`, `Config.owns_backend` and `Config.owns_dir` say which part a field changes.
-/

namespace OrderedStore.Config

variable {codec : Json.Codec}

/-- The value is the string of this text. -/
def IsText (json : Json) (text : String) : Prop := json = .string (some text.toList)

/-- The value is the name of this backend, or an object whose only member has this name and no value. -/
def IsBackend (json : Json) (backend : Backend) : Prop :=
  json = .string (some backend.name.toList) ∨ json = .object [(some backend.name.toList, .null)]

/-! ### Values -/

theorem lookup_named {name : String} {backend : Backend} :
    Backend.named.lookup name = some backend ↔ name = backend.name := by
  constructor
  · intro h
    obtain ⟨front, behind, hsplit, -⟩ := List.lookup_eq_some_iff.1 h
    have hmem : (name, backend) ∈ Backend.named := hsplit ▸ List.mem_append_right front List.mem_cons_self
    obtain ⟨other, -, heq⟩ := List.mem_map.1 hmem
    obtain ⟨rfl, rfl⟩ := Prod.mk.inj heq
    rfl
  · rintro rfl
    cases backend <;> rfl

theorem readBackend_eq_some (h : codec.Lawful) {json : Json} {backend : Backend} :
    codec.readName Backend.named json = some backend ↔ IsBackend json backend := by
  have hlookup : ∀ written : List Char,
      Backend.named.lookup (String.ofList written) = some backend ↔ written = backend.name.toList := by
    intro written
    rw [lookup_named]
    constructor
    · intro heq
      rw [← heq, String.toList_ofList]
    · rintro rfl
      exact String.ofList_toList
  by_cases hstring : ∃ written, json = .string (some written)
  · obtain ⟨written, rfl⟩ := hstring
    have hread := h.readName_string Backend.named (String.ofList written)
    rw [String.toList_ofList] at hread
    rw [hread, hlookup]
    simp [IsBackend]
  · by_cases hobject : ∃ written, json = .object [(some written, .null)]
    · obtain ⟨written, rfl⟩ := hobject
      have hread := h.readName_object Backend.named (String.ofList written)
      rw [String.toList_ofList] at hread
      rw [hread, hlookup]
      simp [IsBackend]
    · rw [h.readName_other _ _ (not_exists.1 hstring) (not_exists.1 hobject)]
      refine iff_of_false (by simp) ?_
      rintro (heq | heq)
      · exact hstring ⟨_, heq⟩
      · exact hobject ⟨_, heq⟩

theorem isSome_nameField (h : codec.Lawful) (json : Json) :
    ((nameField codec).read json).isSome ↔ ∃ text, IsText json text := by
  simp only [nameField, Option.isSome_map, Option.isSome_iff_exists, h.readText, IsText]

theorem isSome_backendField (h : codec.Lawful) (json : Json) :
    ((backendField codec).read json).isSome ↔ ∃ backend, IsBackend json backend := by
  simp only [backendField, Option.isSome_map, Option.isSome_iff_exists, readBackend_eq_some h]

theorem isSome_dirField (h : codec.Lawful) (json : Json) :
    ((dirField codec).read json).isSome ↔ ∃ text, IsText json text := by
  simp only [dirField, Option.isSome_map, Option.isSome_iff_exists, h.readText, IsText]

/-- All fields are strings or names. -/
theorem readsPlainly_fields : ∀ field ∈ fields codec, codec.ReadsPlainly field := by
  simp only [fields, List.forall_mem_cons]
  exact ⟨.inl ⟨_, rfl⟩, .inr ⟨_, _, _, rfl⟩, .inl ⟨_, rfl⟩, fun _ hnil => absurd hnil List.not_mem_nil⟩

/-- A text of a value is read as the value. -/
theorem read?_eq_readRecord (h : codec.Lawful) {json : Json} {text : String}
    (htext : Json.Element json text.toList) :
    read? codec text = codec.readRecord default (fields codec) json :=
  h.readFrom default (fields codec) readsPlainly_fields htext

/-! ### Parts -/

/-- What a field can change. -/
theorem cases_of_read {field : Json.Field Config} (hfield : field ∈ fields codec) {json : Json}
    {update : Config → Config} (h : field.read json = some update) :
    (field = nameField codec ∧ ∃ name, codec.readText json = some name ∧
        update = fun config => { config with name }) ∨
      (field = backendField codec ∧ ∃ backend, codec.readName Backend.named json = some backend ∧
        update = fun config => { config with backend }) ∨
      (field = dirField codec ∧ ∃ dir, codec.readText json = some dir ∧
        update = fun config => { config with dir }) := by
  simp only [fields, List.mem_cons, List.not_mem_nil, or_false] at hfield
  obtain rfl | rfl | rfl := hfield <;>
    obtain ⟨value, hvalue, rfl⟩ := Option.map_eq_some_iff.1 h
  · exact .inl ⟨rfl, value, hvalue, rfl⟩
  · exact .inr (.inl ⟨rfl, value, hvalue, rfl⟩)
  · exact .inr (.inr ⟨rfl, value, hvalue, rfl⟩)

theorem independent_fields {first second : Json.Field Config} (hfirst : first ∈ fields codec)
    (hsecond : second ∈ fields codec) (hne : first.name ≠ second.name) : first.Independent second := by
  intro json json' update update' hupdate hupdate' config
  obtain ⟨rfl, _, -, rfl⟩ | ⟨rfl, _, -, rfl⟩ | ⟨rfl, _, -, rfl⟩ := cases_of_read hfirst hupdate <;>
    obtain ⟨rfl, _, -, rfl⟩ | ⟨rfl, _, -, rfl⟩ | ⟨rfl, _, -, rfl⟩ := cases_of_read hsecond hupdate' <;>
    first
    | rfl
    | exact absurd rfl hne

theorem separate_fields (codec : Json.Codec) : Json.Field.Separate (fields codec) := by
  have hnodup : ((fields codec).map Json.Field.name).Nodup := by
    simp [fields, nameField, backendField, dirField]
  exact ⟨hnodup, (List.pairwise_map.1 hnodup).imp_of_mem independent_fields⟩

theorem owns_name (h : codec.Lawful) : (nameField codec).Owns (fields codec) Config.name IsText where
  mem := List.mem_cons_self
  writes hread := by
    obtain ⟨name, hname, rfl⟩ := Option.map_eq_some_iff.1 hread
    exact ⟨name, h.readText.1 hname, fun _ => rfl⟩
  keeps other hother hne json update hread config := by
    obtain ⟨rfl, -⟩ | ⟨-, _, -, rfl⟩ | ⟨-, _, -, rfl⟩ := cases_of_read hother hread
    · exact absurd rfl hne
    · rfl
    · rfl

theorem owns_backend (h : codec.Lawful) :
    (backendField codec).Owns (fields codec) Config.backend IsBackend where
  mem := .tail _ List.mem_cons_self
  writes hread := by
    obtain ⟨backend, hbackend, rfl⟩ := Option.map_eq_some_iff.1 hread
    exact ⟨backend, (readBackend_eq_some h).1 hbackend, fun _ => rfl⟩
  keeps other hother hne json update hread config := by
    obtain ⟨-, _, -, rfl⟩ | ⟨rfl, -⟩ | ⟨-, _, -, rfl⟩ := cases_of_read hother hread
    · rfl
    · exact absurd rfl hne
    · rfl

theorem owns_dir (h : codec.Lawful) : (dirField codec).Owns (fields codec) Config.dir IsText where
  mem := .tail _ (.tail _ List.mem_cons_self)
  writes hread := by
    obtain ⟨dir, hdir, rfl⟩ := Option.map_eq_some_iff.1 hread
    exact ⟨dir, h.readText.1 hdir, fun _ => rfl⟩
  keeps other hother hne json update hread config := by
    obtain ⟨-, _, -, rfl⟩ | ⟨-, _, -, rfl⟩ | ⟨rfl, -⟩ := cases_of_read hother hread
    · rfl
    · rfl
    · exact absurd rfl hne

end OrderedStore.Config
