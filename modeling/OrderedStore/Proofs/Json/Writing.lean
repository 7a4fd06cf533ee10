import Mathlib.Tactic.SplitIfs
import OrderedStore.Json.Grammar

/-!
# Writing well-formed texts

What is written for a string is a written form of this string, whatever its characters are.

* `Json.body_quoteChar` is the case distinction over characters, `Json.body_quote` the induction over
  the string.
* `Json.element_of_value` is for texts without blanks.
-/

namespace OrderedStore.Json

/-! ### Strings -/

theorem isHex_hexDigit {value : Nat} (h : value < 16) : IsHex (hexDigit value) value := ⟨h, .inl rfl⟩

/-- The escape of a control character has two zeros and the two digits of its number. -/
theorem code_of_control {unit : Nat} (h : unit < 0x20) :
    Code unit ['0', '0', hexDigit (unit / 16), hexDigit (unit % 16)] := by
  have hzero : IsHex '0' 0 := isHex_hexDigit (by decide)
  have hfirst : IsHex (hexDigit (unit / 16)) (unit / 16) := isHex_hexDigit (by omega)
  have hsecond : IsHex (hexDigit (unit % 16)) (unit % 16) := isHex_hexDigit (by omega)
  have hcode := Code.digits hzero hzero hfirst hsecond
  have hunit : ((0 * 16 + 0) * 16 + unit / 16) * 16 + unit % 16 = unit := by omega
  rwa [hunit] at hcode

/-- Whichever way a character is written, it is read as itself. -/
theorem body_quoteChar (char : Char) {text written : List Char} (h : Body text written) :
    Body (char :: text) (quoteChar char ++ written) := by
  unfold quoteChar
  split_ifs with hquote hslash hback htab hline hform hreturn hcontrol
  · subst hquote
    exact .short (by decide) h
  · subst hslash
    exact .short (by decide) h
  · subst hback
    exact .short (by decide) h
  · subst htab
    exact .short (by decide) h
  · subst hline
    exact .short (by decide) h
  · subst hform
    exact .short (by decide) h
  · subst hreturn
    exact .short (by decide) h
  · have hbody := Body.code (code_of_control hcontrol) (.inl (by omega)) h
    rwa [Char.ofNat_toNat] at hbody
  · exact .plain (Nat.le_of_not_lt hcontrol) hquote hslash h

theorem body_quote (text : List Char) : Body text (text.flatMap quoteChar) := by
  induction text with
  | nil => exact .done
  | cons char text ih => exact body_quoteChar char ih

theorem value_quote (text : List Char) : Value (.string (some text)) (quote text) :=
  .string (body_quote text)

/-! ### Values without blanks -/

theorem blanks_nil : Blanks [] := by
  rintro _ ⟨⟩

theorem element_of_value {value : Json} {written : List Char} (h : Value value written) :
    Element value written := by
  have hspaced := Element.spaced blanks_nil h blanks_nil
  rwa [List.nil_append, List.append_nil] at hspaced

end OrderedStore.Json
