import OrderedStore.Utf8

/-!
# Reading well-formed text

Reading the UTF-8 encoding of a text gives the text back: no character of it is replaced.

* `Utf8.lead_pair`, `Utf8.lead_triple` and `Utf8.lead_quadruple` say what opens the longer sequences, and
  which bytes may follow.
* `Utf8.decodeFrom_utf8EncodeChar` reads one character, `Utf8.decodeLossy_ofString` a whole text.
-/

namespace OrderedStore.Utf8

/-! ### The first byte -/

theorem lead_single : ∀ n < 0x80, lead (UInt8.ofNat n) = .complete (Char.ofNat n) := by decide

theorem lead_pair : ∀ n < 0xE0, 0xC2 ≤ n → lead (UInt8.ofNat n) = .opens ⟨1, 0x80, 0xBF, n - 0xC0⟩ := by
  decide +kernel

/-- The byte behind `0xE0` is large enough for the sequence to be needed, and the one behind `0xED` small
enough for it not to be a surrogate. -/
theorem lead_triple : ∀ n < 0xF0, 0xE0 ≤ n →
    lead (UInt8.ofNat n) =
      .opens ⟨2, if n = 0xE0 then 0xA0 else 0x80, if n = 0xED then 0x9F else 0xBF, n - 0xE0⟩ := by
  decide +kernel

/-- The byte behind `0xF0` is large enough for the sequence to be needed, and the one behind `0xF4` small
enough for it not to be above the last character. -/
theorem lead_quadruple : ∀ n < 0xF5, 0xF0 ≤ n →
    lead (UInt8.ofNat n) =
      .opens ⟨3, if n = 0xF0 then 0x90 else 0x80, if n = 0xF4 then 0x8F else 0xBF, n - 0xF0⟩ := by
  decide +kernel

theorem decodeFrom_none_of_complete {byte : UInt8} {char : Char} (h : lead byte = .complete char)
    (rest : Bytes) : decodeFrom none (byte :: rest) = char :: decodeFrom none rest := by
  rw [decodeFrom, h]

theorem decodeFrom_none_of_opens {byte : UInt8} {pending : Pending} (h : lead byte = .opens pending)
    (rest : Bytes) : decodeFrom none (byte :: rest) = decodeFrom (some pending) rest := by
  rw [decodeFrom, h]

/-! ### The bytes behind it -/

section Continued

variable {least greatest : UInt8} {n : Nat}

theorem push_ofNat (hhigh : n ≤ greatest.toNat) (missing bits : Nat) :
    (Pending.mk missing least greatest bits).push (UInt8.ofNat n) =
      ⟨missing - 1, 0x80, 0xBF, bits * 64 + (n - 0x80)⟩ := by
  have hsize : n < UInt8.size := Nat.lt_of_le_of_lt hhigh greatest.toNat_lt
  rw [Pending.push, UInt8.toNat_ofNat_of_lt' hsize]

variable (hlow : least.toNat ≤ n) (hhigh : n ≤ greatest.toNat)

include hlow hhigh

theorem admits_of_le : least ≤ UInt8.ofNat n ∧ UInt8.ofNat n ≤ greatest := by
  have hsize : n < UInt8.size := Nat.lt_of_le_of_lt hhigh greatest.toNat_lt
  rw [UInt8.le_iff_toNat_le, UInt8.le_iff_toNat_le, UInt8.toNat_ofNat_of_lt' hsize]
  exact ⟨hlow, hhigh⟩

/-- The last byte completes the character. -/
theorem decodeFrom_some_one (bits : Nat) (rest : Bytes) :
    decodeFrom (some ⟨1, least, greatest, bits⟩) (UInt8.ofNat n :: rest) =
      Char.ofNat (bits * 64 + (n - 0x80)) :: decodeFrom none rest := by
  rw [decodeFrom, if_pos (admits_of_le hlow hhigh), push_ofNat hhigh]
  rfl

/-- A byte before the last one adds its bits. -/
theorem decodeFrom_some_succ (missing bits : Nat) (rest : Bytes) :
    decodeFrom (some ⟨missing + 2, least, greatest, bits⟩) (UInt8.ofNat n :: rest) =
      decodeFrom (some ⟨missing + 1, 0x80, 0xBF, bits * 64 + (n - 0x80)⟩) rest := by
  rw [decodeFrom, if_pos (admits_of_le hlow hhigh), push_ofNat hhigh]
  rfl

end Continued

/-! ### Characters and texts -/

section Sequences

variable {n : Nat} (rest : Bytes)

theorem decodeFrom_pair (hlow : 0x80 ≤ n) (hhigh : n ≤ 0x7FF) :
    decodeFrom none (UInt8.ofNat (n / 64 % 32 + 192) :: UInt8.ofNat (n % 64 + 128) :: rest) =
      Char.ofNat n :: decodeFrom none rest := by
  have hbits : (n / 64 % 32 + 192 - 0xC0) * 64 + (n % 64 + 128 - 0x80) = n := by omega
  rw [decodeFrom_none_of_opens (lead_pair _ (by omega) (by omega)),
    decodeFrom_some_one (show 0x80 ≤ _ by omega) (show _ ≤ 0xBF by omega), hbits]

theorem decodeFrom_triple (hlow : 0x800 ≤ n) (hhigh : n ≤ 0xFFFF) (hvalid : n < 0xD800 ∨ 0xDFFF < n) :
    decodeFrom none (UInt8.ofNat (n / 4096 % 16 + 224) :: UInt8.ofNat (n / 64 % 64 + 128) ::
        UInt8.ofNat (n % 64 + 128) :: rest) = Char.ofNat n :: decodeFrom none rest := by
  have hbits : ((n / 4096 % 16 + 224 - 0xE0) * 64 + (n / 64 % 64 + 128 - 0x80)) * 64 +
      (n % 64 + 128 - 0x80) = n := by omega
  rw [decodeFrom_none_of_opens (lead_triple _ (by omega) (by omega)), decodeFrom_some_succ _ _ 0,
    decodeFrom_some_one (show 0x80 ≤ _ by omega) (show _ ≤ 0xBF by omega), hbits]
  · split
    · show 0xA0 ≤ _
      omega
    · show 0x80 ≤ _
      omega
  · split
    · show _ ≤ 0x9F
      omega
    · show _ ≤ 0xBF
      omega

theorem decodeFrom_quadruple (hlow : 0x10000 ≤ n) (hhigh : n < 0x110000) :
    decodeFrom none (UInt8.ofNat (n / 262144 % 8 + 240) :: UInt8.ofNat (n / 4096 % 64 + 128) ::
        UInt8.ofNat (n / 64 % 64 + 128) :: UInt8.ofNat (n % 64 + 128) :: rest) =
      Char.ofNat n :: decodeFrom none rest := by
  have hbits : (((n / 262144 % 8 + 240 - 0xF0) * 64 + (n / 4096 % 64 + 128 - 0x80)) * 64 +
      (n / 64 % 64 + 128 - 0x80)) * 64 + (n % 64 + 128 - 0x80) = n := by omega
  rw [decodeFrom_none_of_opens (lead_quadruple _ (by omega) (by omega)), decodeFrom_some_succ _ _ 1,
    decodeFrom_some_succ (show 0x80 ≤ _ by omega) (show _ ≤ 0xBF by omega) 0,
    decodeFrom_some_one (show 0x80 ≤ _ by omega) (show _ ≤ 0xBF by omega), hbits]
  · split
    · show 0x90 ≤ _
      omega
    · show 0x80 ≤ _
      omega
  · split
    · show _ ≤ 0x8F
      omega
    · show _ ≤ 0xBF
      omega

end Sequences

/-- The encoding of a character is read as this character, whatever follows it. -/
theorem decodeFrom_utf8EncodeChar (char : Char) (rest : Bytes) :
    decodeFrom none (String.utf8EncodeChar char ++ rest) = char :: decodeFrom none rest := by
  have hvalid : char.val.toNat < 0xD800 ∨ 0xDFFF < char.val.toNat ∧ char.val.toNat < 0x110000 := char.valid
  have hchar : Char.ofNat char.val.toNat = char := Char.ofNat_toNat char
  rw [String.utf8EncodeChar.eq_1]
  split
  · rename_i hsingle
    have hlead := lead_single char.val.toNat (Nat.lt_succ_of_le hsingle)
    rw [List.singleton_append, decodeFrom_none_of_complete hlead, hchar]
  · rename_i hlow
    split
    · rename_i hpair
      exact (decodeFrom_pair rest (by omega) hpair).trans (by rw [hchar])
    · split
      · rename_i htriple
        exact (decodeFrom_triple rest (by omega) htriple (by omega)).trans (by rw [hchar])
      · exact (decodeFrom_quadruple rest (by omega) (by omega)).trans (by rw [hchar])

/-- **The encoding of a text is read as this text.** -/
theorem decodeLossy_ofString (text : String) : decodeLossy (Bytes.ofString text) = text := by
  have hchars : ∀ chars : List Char, decodeFrom none (chars.flatMap String.utf8EncodeChar) = chars := by
    intro chars
    induction chars with
    | nil => rfl
    | cons char chars ih => rw [List.flatMap_cons, decodeFrom_utf8EncodeChar, ih]
  rw [decodeLossy, Bytes.ofString, hchars, String.ofList_toList]

end OrderedStore.Utf8
