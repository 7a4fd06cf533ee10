/-!
# JSON texts

The values of JSON, and the strings among them.

* `Json` keeps members in the order in which they are written, repeated ones included, and numbers
  as they are written.
* `Json.Piece` is one character or one four-digit escape of a string; `Json.ofPieces?` joins the
  escapes of a surrogate pair to one character.
* `Json.quote` writes a string with the fewest escapes.
-/

namespace OrderedStore

/-- A JSON value.  A string is absent if it holds an escaped surrogate without its partner. -/
inductive Json where
  | null
  | bool (value : Bool)
  | number (text : List Char)
  | string (text : Option (List Char))
  | array (items : List Json)
  | object (members : List (Option (List Char) × Json))

namespace Json

/-! ### Strings -/

/-- A piece of a written string: a character, or the code of a four-digit escape. -/
inductive Piece where
  | plain (char : Char)
  | code (unit : Nat)
  deriving DecidableEq

/-- Whether a code is the first half of a surrogate pair. -/
def isHigh (unit : Nat) : Bool := 0xD800 ≤ unit && unit < 0xDC00

/-- Whether a code is the second half of a surrogate pair. -/
def isLow (unit : Nat) : Bool := 0xDC00 ≤ unit && unit < 0xE000

/-- The characters of the pieces; absent if a surrogate stands without its partner. -/
def ofPieces? : List Piece → Option (List Char)
  | [] => some []
  | .plain char :: rest => (ofPieces? rest).map (char :: ·)
  | .code high :: .code low :: rest =>
    if isHigh high && isLow low then
      (ofPieces? rest).map (Char.ofNat (0x10000 + (high - 0xD800) * 0x400 + (low - 0xDC00)) :: ·)
    else if isHigh high || isLow high then none
    else (ofPieces? (.code low :: rest)).map (Char.ofNat high :: ·)
  | .code unit :: rest =>
    if isHigh unit || isLow unit then none
    else (ofPieces? rest).map (Char.ofNat unit :: ·)

/-- The lowercase hexadecimal digit of a number below sixteen. -/
def hexDigit (n : Nat) : Char :=
  if n < 10 then Char.ofNat (48 + n) else Char.ofNat (87 + n)

/-- A character within quotes: quotes, backslashes and control characters are escaped, with the
short escape if there is one. -/
def quoteChar (char : Char) : List Char :=
  if char = '"' then ['\\', '"']
  else if char = '\\' then ['\\', '\\']
  else if char = Char.ofNat 8 then ['\\', 'b']
  else if char = Char.ofNat 9 then ['\\', 't']
  else if char = Char.ofNat 10 then ['\\', 'n']
  else if char = Char.ofNat 12 then ['\\', 'f']
  else if char = Char.ofNat 13 then ['\\', 'r']
  else if char.toNat < 0x20 then
    ['\\', 'u', '0', '0', hexDigit (char.toNat / 16), hexDigit (char.toNat % 16)]
  else [char]

/-- A string in quotes. -/
def quote (text : List Char) : List Char :=
  '"' :: text.flatMap quoteChar ++ ['"']

end Json

end OrderedStore
