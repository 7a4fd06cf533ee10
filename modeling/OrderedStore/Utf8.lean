import OrderedStore.Bytes

/-!
# Reading UTF-8 with replacement

Bytes that are not UTF-8 are still shown: every maximal piece that begins a character and is then
broken off, and every byte that begins none, becomes one replacement character.

* `Lead` says what a byte does at the beginning of a character.
* `decodeLossy` reads the bytes one by one and keeps the character that is being assembled.
-/

namespace OrderedStore.Utf8

/-- A character that still waits for continuation bytes. -/
structure Pending where
  /-- The number of bytes that are missing. -/
  missing : Nat
  /-- The least value of the next byte. -/
  least : UInt8
  /-- The greatest value of the next byte. -/
  greatest : UInt8
  /-- The bits read so far. -/
  bits : Nat
  deriving DecidableEq

/-- What a byte does at the beginning of a character. -/
inductive Lead where
  /-- The byte is a character of its own, or is replaced by one. -/
  | complete (char : Char)
  /-- The byte begins a longer character. -/
  | opens (pending : Pending)
  deriving DecidableEq

/-- The replacement character. -/
def replacement : Char := Char.ofNat 0xFFFD

/-- The well-formed sequences: no overlong form, no surrogate, nothing above `U+10FFFF`. -/
def lead (byte : UInt8) : Lead :=
  if byte < 0x80 then .complete (Char.ofNat byte.toNat)
  -- Continuation bytes, and the leads of overlong pairs.
  else if byte < 0xC2 then .complete replacement
  else if byte < 0xE0 then .opens ⟨1, 0x80, 0xBF, byte.toNat - 0xC0⟩
  -- `0xE0` and `0xF0` would open overlong forms, `0xED` surrogates, `0xF4` what lies above the end.
  else if byte = 0xE0 then .opens ⟨2, 0xA0, 0xBF, 0⟩
  else if byte = 0xED then .opens ⟨2, 0x80, 0x9F, 0xD⟩
  else if byte < 0xF0 then .opens ⟨2, 0x80, 0xBF, byte.toNat - 0xE0⟩
  else if byte = 0xF0 then .opens ⟨3, 0x90, 0xBF, 0⟩
  else if byte < 0xF4 then .opens ⟨3, 0x80, 0xBF, byte.toNat - 0xF0⟩
  else if byte = 0xF4 then .opens ⟨3, 0x80, 0x8F, 4⟩
  else .complete replacement

/-- The pending character after one of its continuation bytes. -/
def Pending.push (pending : Pending) (byte : UInt8) : Pending :=
  ⟨pending.missing - 1, 0x80, 0xBF, pending.bits * 64 + (byte.toNat - 0x80)⟩

/-- Reads the bytes that follow; a byte that cannot continue the pending character ends it with a
replacement and is read again as a beginning. -/
def decodeFrom : Option Pending → Bytes → List Char
  | none, [] => []
  | some _, [] => [replacement]
  | none, byte :: rest =>
    match lead byte with
    | .complete char => char :: decodeFrom none rest
    | .opens pending => decodeFrom (some pending) rest
  | some pending, byte :: rest =>
    if pending.least ≤ byte ∧ byte ≤ pending.greatest then
      let pushed := pending.push byte
      if pushed.missing = 0 then Char.ofNat pushed.bits :: decodeFrom none rest
      else decodeFrom (some pushed) rest
    else
      match lead byte with
      | .complete char => replacement :: char :: decodeFrom none rest
      | .opens pending => replacement :: decodeFrom (some pending) rest

/-- The text of the bytes, with a replacement character for each piece that is not UTF-8. -/
def decodeLossy (bytes : Bytes) : String :=
  String.ofList (decodeFrom none bytes)

end OrderedStore.Utf8
