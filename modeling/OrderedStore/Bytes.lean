/-!
# Byte strings

Keys and values are byte strings, ordered lexicographically.  This module holds the type, the
upper bound of the strings that begin with a given stem, and the written forms of a byte string.

* `Bytes.stemEnd?` is the least byte string above every extension of a stem.
* `Bytes.hex` writes two uppercase digits for each byte.
* `Bytes.decimals` writes the bytes as a bracketed list of decimal numbers.
-/

namespace OrderedStore

/-- A byte string; `<` is the lexicographic order. -/
abbrev Bytes := List UInt8

namespace Bytes

/-! ### The end of a stem -/

/-- The least byte string greater than every byte string that begins with `stem`: the last byte
below `0xFF` is raised by one and what follows it is dropped.  A stem without such a byte has
none. -/
def stemEnd? : Bytes → Option Bytes
  | [] => none
  | byte :: rest =>
    match stemEnd? rest with
    | some limit => some (byte :: limit)
    | none => if byte < 0xFF then some [byte + 1] else none

@[simp] theorem stemEnd?_nil : stemEnd? [] = none := rfl

theorem stemEnd?_cons_of_some {byte : UInt8} {rest limit : Bytes} (h : stemEnd? rest = some limit) :
    stemEnd? (byte :: rest) = some (byte :: limit) := by
  simp [stemEnd?, h]

theorem stemEnd?_cons_of_none {byte : UInt8} {rest : Bytes} (h : stemEnd? rest = none) :
    stemEnd? (byte :: rest) = if byte < 0xFF then some [byte + 1] else none := by
  simp [stemEnd?, h]

/-! ### Written forms -/

/-- The uppercase hexadecimal digit of a number below sixteen. -/
def hexDigit (n : Nat) : Char :=
  if n < 10 then Char.ofNat (48 + n) else Char.ofNat (55 + n)

/-- Two hexadecimal digits for each byte, the high one first. -/
def hex (bytes : Bytes) : List Char :=
  bytes.flatMap fun byte => [hexDigit (byte.toNat / 16), hexDigit (byte.toNat % 16)]

@[simp] theorem hex_nil : hex [] = [] := rfl

theorem hex_append (a b : Bytes) : hex (a ++ b) = hex a ++ hex b := by
  simp [hex]

/-- The bytes as decimal numbers, separated by commas, in square brackets. -/
def decimals (bytes : Bytes) : String :=
  "[" ++ String.intercalate ", " (bytes.map fun byte => toString byte.toNat) ++ "]"

/-- The UTF-8 encoding of a text. -/
def ofString (text : String) : Bytes :=
  text.toList.flatMap String.utf8EncodeChar

end Bytes

end OrderedStore
