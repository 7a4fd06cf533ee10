import OrderedStore.Bytes
import OrderedStore.Json.Basic

/-!
# The grammar of JSON

Which texts are written forms of a value.  A value has many of them: there may be blanks between its
parts, and the characters of a string may be escaped in several ways.

* `Json.Body` relates a string to what may stand between its quotes.  Surrogates are escaped in
  pairs only.
* `Json.Number` are the texts of numbers.
* `Json.Element` relates a value to its written forms with blanks on both sides; these are whole
  texts.
-/

namespace OrderedStore.Json

/-! ### Leaves -/

/-- Blanks between two parts of a text. -/
def Blanks (text : List Char) : Prop := ∀ char ∈ text, char ∈ [' ', '\t', '\n', '\r']

/-- The character is a hexadecimal digit of this value, in either case. -/
def IsHex (char : Char) (value : Nat) : Prop :=
  value < 16 ∧ (char = hexDigit value ∨ char = Bytes.hexDigit value)

/-- The four hexadecimal digits of a number. -/
inductive Code : Nat → List Char → Prop
  | digits {a b c d : Char} {p q r s : Nat} (ha : IsHex a p) (hb : IsHex b q) (hc : IsHex c r)
      (hd : IsHex d s) : Code (((p * 16 + q) * 16 + r) * 16 + s) [a, b, c, d]

/-- The letters of the short escapes and the characters they stand for. -/
def shortEscapes : List (Char × Char) :=
  [('"', '"'), ('\\', '\\'), ('/', '/'), ('b', Char.ofNat 8), ('t', Char.ofNat 9),
    ('n', Char.ofNat 10), ('f', Char.ofNat 12), ('r', Char.ofNat 13)]

/-- What may be written between the quotes of a string. -/
inductive Body : List Char → List Char → Prop
  | done : Body [] []
  /-- A character stands for itself unless it is a control character or has a meaning of its own. -/
  | plain {char : Char} {text written : List Char} (hcontrol : 0x20 ≤ char.toNat)
      (hquote : char ≠ '"') (hslash : char ≠ '\\') (h : Body text written) :
      Body (char :: text) (char :: written)
  | short {letter char : Char} {text written : List Char} (hescape : (letter, char) ∈ shortEscapes)
      (h : Body text written) : Body (char :: text) ('\\' :: letter :: written)
  | code {unit : Nat} {digits text written : List Char} (hcode : Code unit digits)
      (hunit : unit < 0xD800 ∨ 0xDFFF < unit) (h : Body text written) :
      Body (Char.ofNat unit :: text) ('\\' :: 'u' :: digits ++ written)
  /-- The two halves of a character beyond the first plane. -/
  | pair {high low : Nat} {digits digits' text written : List Char} (hhigh : Code high digits)
      (hlow : Code low digits') (hfirst : 0xD800 ≤ high ∧ high < 0xDC00)
      (hsecond : 0xDC00 ≤ low ∧ low < 0xE000) (h : Body text written) :
      Body (Char.ofNat (0x10000 + (high - 0xD800) * 0x400 + (low - 0xDC00)) :: text)
        ('\\' :: 'u' :: digits ++ '\\' :: 'u' :: digits' ++ written)

/-- At least one decimal digit. -/
def Digits (text : List Char) : Prop := text ≠ [] ∧ ∀ char ∈ text, char.isDigit = true

/-- The digits before the point: a zero, or digits of which the first is none. -/
def Whole (text : List Char) : Prop := text = ['0'] ∨ Digits text ∧ text.head? ≠ some '0'

/-- The point and the digits behind it, or nothing. -/
def Fraction (text : List Char) : Prop := text = [] ∨ ∃ digits, Digits digits ∧ text = '.' :: digits

/-- The exponent, or nothing. -/
def Exponent (text : List Char) : Prop :=
  text = [] ∨ ∃ mark sign digits, (mark = 'e' ∨ mark = 'E') ∧ (sign = [] ∨ sign = ['+'] ∨ sign = ['-']) ∧
    Digits digits ∧ text = mark :: (sign ++ digits)

/-- The texts of numbers. -/
inductive Number : List Char → Prop
  | unsigned {whole fraction exponent : List Char} (hwhole : Whole whole) (hfraction : Fraction fraction)
      (hexponent : Exponent exponent) : Number (whole ++ fraction ++ exponent)
  | negative {whole fraction exponent : List Char} (hwhole : Whole whole) (hfraction : Fraction fraction)
      (hexponent : Exponent exponent) : Number ('-' :: (whole ++ fraction ++ exponent))

/-! ### Values -/

mutual

/-- The written forms of a value. -/
inductive Value : Json → List Char → Prop
  | null : Value .null ['n', 'u', 'l', 'l']
  | isTrue : Value (.bool true) ['t', 'r', 'u', 'e']
  | isFalse : Value (.bool false) ['f', 'a', 'l', 's', 'e']
  | number {text : List Char} (h : Number text) : Value (.number text) text
  | string {text written : List Char} (h : Body text written) :
      Value (.string (some text)) ('"' :: (written ++ ['"']))
  | noItems {blanks : List Char} (h : Blanks blanks) : Value (.array []) ('[' :: (blanks ++ [']']))
  | items {items : List Json} {written : List Char} (h : Items items written) :
      Value (.array items) ('[' :: (written ++ [']']))
  | noMembers {blanks : List Char} (h : Blanks blanks) :
      Value (.object []) ('\x7b' :: (blanks ++ ['\x7d']))
  | members {members : List (Option (List Char) × Json)} {written : List Char}
      (h : Members members written) : Value (.object members) ('\x7b' :: (written ++ ['\x7d']))

/-- The written forms of a value with blanks on both sides. -/
inductive Element : Json → List Char → Prop
  | spaced {value : Json} {before written behind : List Char} (hbefore : Blanks before)
      (h : Value value written) (hbehind : Blanks behind) :
      Element value (before ++ written ++ behind)

/-- One item or more, separated by commas. -/
inductive Items : List Json → List Char → Prop
  | last {item : Json} {written : List Char} (h : Element item written) : Items [item] written
  | more {item : Json} {items : List Json} {written others : List Char} (h : Element item written)
      (hothers : Items items others) : Items (item :: items) (written ++ ',' :: others)

/-- A name and its value. -/
inductive Member : Option (List Char) × Json → List Char → Prop
  | named {name : List Char} {value : Json} {before quoted between written : List Char}
      (hbefore : Blanks before) (hname : Body name quoted) (hbetween : Blanks between)
      (h : Element value written) :
      Member (some name, value) (before ++ '"' :: (quoted ++ '"' :: (between ++ ':' :: written)))

/-- One member or more, separated by commas. -/
inductive Members : List (Option (List Char) × Json) → List Char → Prop
  | last {member : Option (List Char) × Json} {written : List Char} (h : Member member written) :
      Members [member] written
  | more {member : Option (List Char) × Json} {members : List (Option (List Char) × Json)}
      {written others : List Char} (h : Member member written) (hothers : Members members others) :
      Members (member :: members) (written ++ ',' :: others)

end

end OrderedStore.Json
