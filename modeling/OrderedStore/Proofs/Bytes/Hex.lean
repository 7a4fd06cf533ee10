import OrderedStore.Bytes

/-!
# Hexadecimal text

A byte string can be read off its hexadecimal text, and one text begins with another just if the
byte strings do.  The text holds nothing but hexadecimal digits.

* `Bytes.hex_isPrefix_iff` compares the beginnings of byte strings and of their texts.
* `Bytes.forall_mem_hex` says which characters a text holds.
-/

namespace OrderedStore.Bytes

theorem hexDigit_inj : ∀ m < 16, ∀ n < 16, hexDigit m = hexDigit n → m = n := by decide

/-- A byte is known from its two digits. -/
theorem eq_of_hexDigit_eq {a b : UInt8} (hhigh : hexDigit (a.toNat / 16) = hexDigit (b.toNat / 16))
    (hlow : hexDigit (a.toNat % 16) = hexDigit (b.toNat % 16)) : a = b := by
  have ha := a.toNat_lt
  have hb := b.toNat_lt
  have hdiv := hexDigit_inj _ (by omega) _ (by omega) hhigh
  have hmod := hexDigit_inj _ (by omega) _ (by omega) hlow
  refine UInt8.toNat_inj.1 ?_
  rw [← Nat.div_add_mod a.toNat 16, ← Nat.div_add_mod b.toNat 16, hdiv, hmod]

theorem hex_cons (byte : UInt8) (rest : Bytes) :
    hex (byte :: rest) = hexDigit (byte.toNat / 16) :: hexDigit (byte.toNat % 16) :: hex rest := rfl

/-- The text of a byte string begins with that of another just if the byte string does. -/
theorem hex_isPrefix_iff {stem key : Bytes} : stem.hex <+: key.hex ↔ stem <+: key := by
  constructor
  · intro h
    induction stem generalizing key with
    | nil => exact List.nil_prefix
    | cons byte stem ih =>
      cases key with
      | nil =>
        rw [hex_cons, hex_nil, List.prefix_nil] at h
        cases h
      | cons first key =>
        rw [hex_cons, hex_cons, List.cons_prefix_cons, List.cons_prefix_cons] at h
        obtain ⟨hhigh, hlow, hrest⟩ := h
        rw [eq_of_hexDigit_eq hhigh hlow]
        exact List.cons_prefix_cons.2 ⟨rfl, ih hrest⟩
  · rintro ⟨rest, rfl⟩
    rw [hex_append]
    exact List.prefix_append _ _

/-- The text of a byte string holds hexadecimal digits only. -/
theorem forall_mem_hex {p : Char → Prop} (h : ∀ n < 16, p (hexDigit n)) (bytes : Bytes) :
    ∀ char ∈ bytes.hex, p char := by
  induction bytes with
  | nil => exact fun _ hchar => absurd hchar List.not_mem_nil
  | cons byte bytes ih =>
    have hlt := byte.toNat_lt
    rw [hex_cons, List.forall_mem_cons, List.forall_mem_cons]
    exact ⟨h _ (by omega), h _ (by omega), ih⟩

theorem notMem_hex {char : Char} (h : ∀ n < 16, hexDigit n ≠ char) (bytes : Bytes) :
    char ∉ bytes.hex := fun hchar => forall_mem_hex (p := (· ≠ char)) h bytes char hchar rfl

theorem bracket_notMem_hex (bytes : Bytes) : ']' ∉ bytes.hex := notMem_hex (by decide) bytes

theorem newline_notMem_hex (bytes : Bytes) : '\n' ∉ bytes.hex := notMem_hex (by decide) bytes

/-- Characters that take one byte each are encoded one by one. -/
theorem ofString_ofList {chars : List Char} (h : ∀ char ∈ chars, char.utf8Size = 1) :
    ofString (String.ofList chars) = chars.map fun char => char.val.toUInt8 := by
  rw [ofString, String.toList_ofList, List.map_eq_flatMap, List.flatMap_def, List.flatMap_def,
    List.map_congr_left fun char hchar => String.utf8EncodeChar_eq_singleton (h char hchar)]

theorem ofString_take {chars : List Char} (h : ∀ char ∈ chars, char.utf8Size = 1) (count : Nat) :
    ofString (String.ofList (chars.take count)) = (ofString (String.ofList chars)).take count := by
  rw [ofString_ofList h, ofString_ofList fun char hchar => h char (List.mem_of_mem_take hchar),
    List.map_take]

/-- The bytes of a text are its UTF-8 encoding. -/
theorem toByteArray_ofString (text : String) : (ofString text).toByteArray = text.toUTF8 :=
  String.utf8Encode_toList

end OrderedStore.Bytes
