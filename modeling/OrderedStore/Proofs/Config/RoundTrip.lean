import OrderedStore.Proofs.Config.Fields

/-!
# Written configurations

What is written for a configuration is well-formed JSON, whatever characters its name and its directory
have, and it is read as the same configuration.  The codec is assumed to be lawful.

* `Config.read?_of_element` reads every written form of a configuration, `Config.element_render` says
  that `Config.render` gives one.
* `Config.read?_render` is the round trip; `Config.rewritten?` reads a text and writes it again.
-/

namespace OrderedStore.Config

variable {codec : Json.Codec}

/-! ### The text of a configuration -/

/-- The value that is written for a configuration. -/
def toJson (config : Config) : Json :=
  .object [(some "name".toList, .string (some config.name.toList)),
    (some "backend".toList, .string (some config.backend.name.toList)),
    (some "dir".toList, .string (some config.dir.toList))]

theorem element_render (h : codec.Lawful) (config : Config) :
    Json.Element config.toJson (config.render codec) := by
  have hfields : ∀ field ∈
      [("name", Json.string (some config.name.toList), codec.writeText config.name),
        ("backend", Json.string (some config.backend.name.toList), codec.writeName config.backend.name),
        ("dir", Json.string (some config.dir.toList), codec.writeText config.dir)],
      Json.Element field.2.1 field.2.2 := by
    simp only [List.forall_mem_cons]
    exact ⟨h.writeText _, h.writeName _, h.writeText _, fun _ hnil => absurd hnil List.not_mem_nil⟩
  exact h.writeRecord _ hfields

theorem readRecord_toJson (h : codec.Lawful) (config : Config) :
    codec.readRecord default (fields codec) config.toJson = some config := by
  have hname : codec.readText (.string (some config.name.toList)) = some config.name := h.readText.2 rfl
  have hbackend : codec.readName Backend.named (.string (some config.backend.name.toList)) =
      some config.backend := (readBackend_eq_some h).2 (.inl rfl)
  have hdir : codec.readText (.string (some config.dir.toList)) = some config.dir := h.readText.2 rfl
  rw [toJson, h.readRecord_object (separate_fields codec) (by simp)]
  simp [fields, Json.gather, Json.Field.updateOf?, Json.valuesNamed, nameField, backendField, dirField, hname,
    hbackend, hdir]

/-- Every written form of a configuration is read as this configuration, with whatever blanks and
escapes it is written. -/
theorem read?_of_element (h : codec.Lawful) {config : Config} {text : String}
    (htext : Json.Element config.toJson text.toList) : read? codec text = some config := by
  rw [read?_eq_readRecord h htext]
  exact readRecord_toJson h config

theorem read?_ofList_render (h : codec.Lawful) (config : Config) :
    read? codec (String.ofList (config.render codec)) = some config := by
  refine read?_of_element h ?_
  rw [String.toList_ofList]
  exact element_render h config

/-- A text that describes a configuration, written again from this configuration. -/
def rewritten? (codec : Json.Codec) (text : String) : Option String :=
  (read? codec text).map fun config => String.ofList (config.render codec)

theorem rewritten?_bind_read? (h : codec.Lawful) (text : String) :
    (rewritten? codec text).bind (read? codec) = read? codec text := by
  cases hread : read? codec text with
  | none => simp [rewritten?, hread]
  | some config => simp [rewritten?, hread, read?_ofList_render h config]

theorem rewritten?_bind_rewritten? (h : codec.Lawful) (text : String) :
    (rewritten? codec text).bind (rewritten? codec) = rewritten? codec text :=
  calc (rewritten? codec text).bind (rewritten? codec)
      = ((rewritten? codec text).bind (read? codec)).map fun config => String.ofList (config.render codec) :=
        Option.map_bind.symm
    _ = rewritten? codec text := by
        rw [rewritten?_bind_read? h]
        rfl

/-- What is written for a configuration is a well-formed text of it, and all well-formed texts of it are read
as this configuration, whichever escapes they use.  So a text that is read and written again describes the
same configuration, and to read and write it once more changes nothing. -/
theorem read?_render (hcodec : codec.Lawful) (config : Config) (text : String) :
    Json.Element config.toJson (config.render codec) ∧
      (∀ written : String, Json.Element config.toJson written.toList → read? codec written = some config) ∧
      read? codec (String.ofList (config.render codec)) = some config ∧
      (rewritten? codec text).bind (read? codec) = read? codec text ∧
      (rewritten? codec text).bind (rewritten? codec) = rewritten? codec text :=
  ⟨element_render hcodec config, fun _ => read?_of_element hcodec, read?_ofList_render hcodec config,
    rewritten?_bind_read? hcodec text, rewritten?_bind_rewritten? hcodec text⟩

/-- Quotes, backslashes, control characters and characters of any plane. -/
def unusual : Config := ⟨"a\"\\\n\u0001\u007f", .disk, "/ä/𝄞"⟩

/-- The strict codec reads what it writes for such characters, and the text that has only blanks is the one of
the default. -/
theorem read?_render_unusual :
    read? .strict "\x7b\"name\":\"a\\\"\\\\\\n\\u0001\u007f\",\"backend\":\"sled\",\"dir\":\"/ä/𝄞\"\x7d" =
        some unusual ∧
      (rewritten? .strict " \x7b\x7d").bind (read? .strict) = some default := by
  obtain ⟨-, -, hunusual, hdefault, -⟩ := read?_render Json.Codec.strict_lawful unusual " \x7b\x7d"
  have hrender : unusual.render .strict =
      "\x7b\"name\":\"a\\\"\\\\\\n\\u0001\u007f\",\"backend\":\"sled\",\"dir\":\"/ä/𝄞\"\x7d".toList := by
    decide
  have hread : read? .strict " \x7b\x7d" = some default := by decide
  rw [hrender, String.ofList_toList] at hunusual
  exact ⟨hunusual, hdefault.trans hread⟩

end OrderedStore.Config
