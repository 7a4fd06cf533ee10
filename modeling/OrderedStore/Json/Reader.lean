import OrderedStore.Json.Basic

/-!
# Reading JSON

A strict reader: no trailing commas, no leading zeros, no raw control characters in strings, and
nothing but blanks behind the value.  Arrays and objects may be nested to any depth.

* `Json.takeString?` reads the rest of a string behind its opening quote.
* `Json.takeNumber?` reads a number.
* `Json.read?` reads a whole text.  Every call of the inner readers takes at least one character, so
  the length of the text bounds their depth.
-/

namespace OrderedStore.Json

/-- The four characters that may stand between two parts of a text. -/
def isBlank (char : Char) : Bool :=
  char = ' ' || char = '\t' || char = '\n' || char = '\r'

/-- The text without its leading blanks. -/
def skipBlanks (text : List Char) : List Char := text.dropWhile isBlank

/-! ### Strings -/

/-- The value of a hexadecimal digit of either case. -/
def hexValue? (char : Char) : Option Nat :=
  if '0' ≤ char ∧ char ≤ '9' then some (char.toNat - 48)
  else if 'a' ≤ char ∧ char ≤ 'f' then some (char.toNat - 87)
  else if 'A' ≤ char ∧ char ≤ 'F' then some (char.toNat - 55)
  else none

/-- The number of four hexadecimal digits. -/
def hexNumber? (a b c d : Char) : Option Nat := do
  return (((← hexValue? a) * 16 + (← hexValue? b)) * 16 + (← hexValue? c)) * 16 + (← hexValue? d)

/-- The character of an escape of one letter. -/
def escaped? (char : Char) : Option Char :=
  if char = '"' ∨ char = '\\' ∨ char = '/' then some char
  else if char = 'b' then some (Char.ofNat 8)
  else if char = 't' then some (Char.ofNat 9)
  else if char = 'n' then some (Char.ofNat 10)
  else if char = 'f' then some (Char.ofNat 12)
  else if char = 'r' then some (Char.ofNat 13)
  else none

/-- Puts a piece before those that a reader found. -/
def consPiece (piece : Piece) (found : List Piece × List Char) :
    List Piece × List Char :=
  (piece :: found.1, found.2)

/-- The pieces of a string up to its closing quote, and the text behind. -/
def takePieces? : List Char → Option (List Piece × List Char)
  | [] => none
  | '"' :: rest => some ([], rest)
  -- A `u` with fewer than four characters behind it falls to the next case and is refused there.
  | '\\' :: 'u' :: a :: b :: c :: d :: rest =>
    match hexNumber? a b c d with
    | none => none
    | some code => (takePieces? rest).map (consPiece (.code code))
  | '\\' :: char :: rest =>
    match escaped? char with
    | none => none
    | some char => (takePieces? rest).map (consPiece (.plain char))
  | char :: rest =>
    if char.toNat < 0x20 ∨ char = '\\' then none
    else (takePieces? rest).map (consPiece (.plain char))

/-- The characters of a string up to its closing quote, and the text behind. -/
def takeString? (text : List Char) : Option (Option (List Char) × List Char) :=
  (takePieces? text).map fun found => (ofPieces? found.1, found.2)

/-! ### Numbers and words -/

/-- The decimal digits at the beginning of a text; at least one is required. -/
def takeDigits? (text : List Char) : Option (List Char × List Char) :=
  let digits := text.takeWhile Char.isDigit
  if digits.isEmpty then none else some (digits, text.dropWhile Char.isDigit)

/-- The digits before the point: a zero stands alone. -/
def takeWhole? : List Char → Option (List Char × List Char)
  | '0' :: rest => some (['0'], rest)
  | text => takeDigits? text

/-- The point and the digits behind it, if there is a point. -/
def takeFraction? : List Char → Option (List Char × List Char)
  | '.' :: rest => (takeDigits? rest).map fun found => ('.' :: found.1, found.2)
  | text => some ([], text)

/-- The sign of an exponent, if there is one. -/
def takeSign : List Char → List Char × List Char
  | '+' :: rest => (['+'], rest)
  | '-' :: rest => (['-'], rest)
  | text => ([], text)

/-- The exponent, if there is one. -/
def takeExponent? : List Char → Option (List Char × List Char)
  | [] => some ([], [])
  | char :: rest =>
    if char = 'e' ∨ char = 'E' then
      let (sign, rest) := takeSign rest
      (takeDigits? rest).map fun found => (char :: sign ++ found.1, found.2)
    else some ([], char :: rest)

/-- A number without a sign. -/
def takeUnsigned? (text : List Char) : Option (List Char × List Char) := do
  let (whole, text) ← takeWhole? text
  let (fraction, text) ← takeFraction? text
  let (exponent, text) ← takeExponent? text
  return (whole ++ fraction ++ exponent, text)

/-- A number and the text behind. -/
def takeNumber? : List Char → Option (List Char × List Char)
  | '-' :: rest => (takeUnsigned? rest).map fun found => ('-' :: found.1, found.2)
  | text => takeUnsigned? text

/-- The text behind a word. -/
def dropWord? (word text : List Char) : Option (List Char) := word.isPrefixOf? text

/-! ### Values -/

mutual

/-- A value, behind blanks, and the text behind it. -/
def takeValue? : Nat → List Char → Option (Json × List Char)
  | 0, _ => none
  | depth + 1, text =>
    match skipBlanks text with
    | '"' :: rest => (takeString? rest).map fun found => (string found.1, found.2)
    | '[' :: rest =>
      match skipBlanks rest with
      | ']' :: rest => some (array [], rest)
      | rest => (takeItems? depth rest).map fun found => (array found.1, found.2)
    | '\x7b' :: rest =>
      match skipBlanks rest with
      | '\x7d' :: rest => some (object [], rest)
      | rest => (takeMembers? depth rest).map fun found => (object found.1, found.2)
    | 'n' :: rest => (dropWord? ['u', 'l', 'l'] rest).map fun rest => (null, rest)
    | 't' :: rest => (dropWord? ['r', 'u', 'e'] rest).map fun rest => (bool true, rest)
    | 'f' :: rest => (dropWord? ['a', 'l', 's', 'e'] rest).map fun rest => (bool false, rest)
    | text => (takeNumber? text).map fun found => (number found.1, found.2)

/-- The items of an array up to its closing bracket; there is at least one. -/
def takeItems? : Nat → List Char → Option (List Json × List Char)
  | 0, _ => none
  | depth + 1, text =>
    match takeValue? depth text with
    | none => none
    | some (item, rest) =>
      match skipBlanks rest with
      | ',' :: rest => (takeItems? depth rest).map fun found => (item :: found.1, found.2)
      | ']' :: rest => some ([item], rest)
      | _ => none

/-- The members of an object up to its closing brace; there is at least one. -/
def takeMembers? : Nat → List Char → Option (List (Option (List Char) × Json) × List Char)
  | 0, _ => none
  | depth + 1, text =>
    match skipBlanks text with
    | '"' :: rest =>
      match takeString? rest with
      | none => none
      | some (name, rest) =>
        match skipBlanks rest with
        | ':' :: rest =>
          match takeValue? depth rest with
          | none => none
          | some (value, rest) =>
            match skipBlanks rest with
            | ',' :: rest =>
              (takeMembers? depth rest).map fun found => ((name, value) :: found.1, found.2)
            | '\x7d' :: rest => some ([(name, value)], rest)
            | _ => none
        | _ => none
    | _ => none

end

/-- The value of a whole text. -/
def read? (text : List Char) : Option Json :=
  match takeValue? (text.length + 1) text with
  | none => none
  | some (value, rest) => if (skipBlanks rest).isEmpty then some value else none

end OrderedStore.Json
