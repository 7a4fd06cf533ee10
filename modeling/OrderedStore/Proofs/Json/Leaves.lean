import Mathlib.Data.List.DropRight
import OrderedStore.Json.Grammar
import OrderedStore.Json.Reader

/-!
# Reading blanks, strings and numbers

Each of the leaf readers takes a whole written form off the beginning of a text, and stops at its end.

* `Json.skipBlanks_append` and `Json.skipBlanks_cons` are what skipping blanks does.
* `Json.takeString?_of_body` reads strings, `Json.takeNumber?_of_number` numbers.
-/

namespace OrderedStore.Json

/-! ### Blanks -/

theorem isBlank_iff {char : Char} : isBlank char = true ↔ char ∈ [' ', '\t', '\n', '\r'] := by
  simp [isBlank, or_assoc]

theorem skipBlanks_append {blanks : List Char} (h : Blanks blanks) (text : List Char) :
    skipBlanks (blanks ++ text) = skipBlanks text :=
  List.dropWhile_append_of_pos fun char hchar => isBlank_iff.2 (h char hchar)

/-- A text that does not begin with a blank is left as it is. -/
theorem skipBlanks_cons {char : Char} (h : isBlank char = false) (text : List Char) :
    skipBlanks (char :: text) = char :: text :=
  List.dropWhile_cons_of_neg (by rw [h]; exact Bool.false_ne_true)

theorem skipBlanks_skipBlanks (text : List Char) : skipBlanks (skipBlanks text) = skipBlanks text :=
  List.dropWhile_idempotent isBlank text

/-! ### Escapes -/

theorem hexValue?_of_isHex {char : Char} {value : Nat} (h : IsHex char value) :
    hexValue? char = some value := by
  obtain ⟨hlt, rfl | rfl⟩ := h
  · revert value
    decide
  · revert value
    decide

theorem hexNumber?_of_code {unit : Nat} {a b c d : Char} (h : Code unit [a, b, c, d]) :
    hexNumber? a b c d = some unit := by
  cases h with
  | digits ha hb hc hd =>
    simp [hexNumber?, hexValue?_of_isHex ha, hexValue?_of_isHex hb, hexValue?_of_isHex hc,
      hexValue?_of_isHex hd]

theorem escaped?_of_mem : ∀ escape ∈ shortEscapes, escape.1 ≠ 'u' ∧ escaped? escape.1 = some escape.2 := by
  decide

/-! ### Strings -/

theorem takePieces?_quote (rest : List Char) : takePieces? ('"' :: rest) = some ([], rest) := rfl

theorem takePieces?_plain {char : Char} (hcontrol : 0x20 ≤ char.toNat) (hquote : char ≠ '"')
    (hslash : char ≠ '\\') (text : List Char) :
    takePieces? (char :: text) = (takePieces? text).map (consPiece (.plain char)) := by
  have hallowed : ¬ (char.toNat < 0x20 ∨ char = '\\') := by
    rintro (h | h)
    · omega
    · exact hslash h
  rw [takePieces?, if_neg hallowed]
  · exact hquote
  · rintro _ _ _ _ _ h -
    exact hslash h
  · rintro _ _ h -
    exact hslash h

theorem takePieces?_short {letter char : Char} (h : (letter, char) ∈ shortEscapes) (text : List Char) :
    takePieces? ('\\' :: letter :: text) = (takePieces? text).map (consPiece (.plain char)) := by
  obtain ⟨hletter, hescaped⟩ := escaped?_of_mem _ h
  rw [takePieces?, hescaped]
  rintro _ _ _ _ _ h -
  exact hletter h

theorem takePieces?_code {unit : Nat} {digits : List Char} (h : Code unit digits) (text : List Char) :
    takePieces? ('\\' :: 'u' :: (digits ++ text)) = (takePieces? text).map (consPiece (.code unit)) := by
  cases h with
  | @digits a b c d p q r s ha hb hc hd =>
    have hnumber := hexNumber?_of_code (.digits ha hb hc hd)
    show takePieces? ('\\' :: 'u' :: a :: b :: c :: d :: text) = _
    rw [takePieces?, hnumber]

/-- An escape that is no half of a pair stands for itself, whatever follows it. -/
theorem ofPieces?_code {unit : Nat} (h : unit < 0xD800 ∨ 0xDFFF < unit) (pieces : List Piece) :
    ofPieces? (.code unit :: pieces) = (ofPieces? pieces).map (Char.ofNat unit :: ·) := by
  have hhigh : isHigh unit = false := by simp [isHigh]; omega
  have hlow : isLow unit = false := by simp [isLow]; omega
  cases pieces with
  | nil => simp [ofPieces?, hhigh, hlow]
  | cons piece pieces =>
    cases piece with
    | plain char => simp [ofPieces?, hhigh, hlow]
    | code next => simp [ofPieces?, hhigh, hlow]

theorem ofPieces?_pair {high low : Nat} (hhigh : 0xD800 ≤ high ∧ high < 0xDC00)
    (hlow : 0xDC00 ≤ low ∧ low < 0xE000) (pieces : List Piece) :
    ofPieces? (.code high :: .code low :: pieces) =
      (ofPieces? pieces).map
        (Char.ofNat (0x10000 + (high - 0xD800) * 0x400 + (low - 0xDC00)) :: ·) := by
  have hfirst : isHigh high = true := by simp [isHigh]; omega
  have hsecond : isLow low = true := by simp [isLow]; omega
  simp [ofPieces?, hfirst, hsecond]

/-- The body of a string is read as pieces of this string. -/
theorem takePieces?_of_body {text written : List Char} (h : Body text written) (rest : List Char) :
    ∃ pieces, takePieces? (written ++ '"' :: rest) = some (pieces, rest) ∧ ofPieces? pieces = some text := by
  induction h with
  | done => exact ⟨[], takePieces?_quote rest, rfl⟩
  | @plain char text written hcontrol hquote hslash _ ih =>
    obtain ⟨pieces, htake, hof⟩ := ih
    refine ⟨.plain char :: pieces, ?_, ?_⟩
    · rw [List.cons_append, takePieces?_plain hcontrol hquote hslash, htake]
      rfl
    · rw [ofPieces?, hof]
      rfl
  | @short letter char text written hescape _ ih =>
    obtain ⟨pieces, htake, hof⟩ := ih
    refine ⟨.plain char :: pieces, ?_, ?_⟩
    · rw [List.cons_append, List.cons_append, takePieces?_short hescape, htake]
      rfl
    · rw [ofPieces?, hof]
      rfl
  | @code unit digits text written hcode hunit _ ih =>
    obtain ⟨pieces, htake, hof⟩ := ih
    refine ⟨.code unit :: pieces, ?_, ?_⟩
    · simp only [List.cons_append, List.append_assoc]
      rw [takePieces?_code hcode, htake]
      rfl
    · rw [ofPieces?_code hunit, hof]
      rfl
  | @pair high low digits digits' text written hhigh hlow hfirst hsecond _ ih =>
    obtain ⟨pieces, htake, hof⟩ := ih
    refine ⟨.code high :: .code low :: pieces, ?_, ?_⟩
    · simp only [List.cons_append, List.append_assoc]
      rw [takePieces?_code hhigh, takePieces?_code hlow, htake]
      rfl
    · rw [ofPieces?_pair hfirst hsecond, hof]
      rfl

theorem takeString?_of_body {text written : List Char} (h : Body text written) (rest : List Char) :
    takeString? (written ++ '"' :: rest) = some (some text, rest) := by
  obtain ⟨pieces, htake, hof⟩ := takePieces?_of_body h rest
  rw [takeString?, htake, ← hof]
  rfl

/-! ### Numbers -/

/-- What stands behind a value: a blank, a comma, a closing bracket or brace, or nothing. -/
def Ends (rest : List Char) : Prop :=
  ∀ char ∈ rest.head?, char ∈ [' ', '\t', '\n', '\r', ',', ']', '\x7d']

/-- A number does not go on with what ends it. -/
theorem Ends.head?_ne {rest : List Char} (h : Ends rest) :
    ∀ char ∈ rest.head?, char.isDigit = false ∧ char ≠ '.' ∧ char ≠ 'e' ∧ char ≠ 'E' := by
  have hall : ∀ char ∈ [' ', '\t', '\n', '\r', ',', ']', '\x7d'],
      char.isDigit = false ∧ char ≠ '.' ∧ char ≠ 'e' ∧ char ≠ 'E' := by simp
  exact fun char hchar => hall char (h char hchar)

section Numbers

variable {digits whole fraction exponent rest : List Char}

theorem takeDigits?_append (h : Digits digits) (hrest : ∀ char ∈ rest.head?, char.isDigit = false) :
    takeDigits? (digits ++ rest) = some (digits, rest) := by
  obtain ⟨hne, hdigits⟩ := h
  have htake : rest.takeWhile Char.isDigit = [] ∧ rest.dropWhile Char.isDigit = rest := by
    cases rest with
    | nil => exact ⟨rfl, rfl⟩
    | cons char rest => simp [hrest char rfl]
  have hempty : digits.isEmpty = false := List.isEmpty_eq_false_iff.2 hne
  rw [takeDigits?, List.takeWhile_append_of_pos hdigits, List.dropWhile_append_of_pos hdigits, htake.1,
    htake.2, List.append_nil]
  simp only [hempty, Bool.false_eq_true, if_false]

theorem takeWhole?_append (h : Whole whole) (hrest : ∀ char ∈ rest.head?, char.isDigit = false) :
    takeWhole? (whole ++ rest) = some (whole, rest) := by
  rcases h with rfl | ⟨hdigits, hhead⟩
  · rfl
  · rw [takeWhole?.eq_2, takeDigits?_append hdigits hrest]
    rintro others hothers
    obtain ⟨hne, -⟩ := hdigits
    cases whole with
    | nil => exact hne rfl
    | cons char whole =>
      obtain ⟨rfl, -⟩ := List.cons.inj hothers
      exact hhead rfl

/-- Neither a fraction nor an exponent begins with a digit. -/
theorem head?_exponent_append (h : Exponent exponent) (hrest : Ends rest) :
    ∀ char ∈ (exponent ++ rest).head?, char.isDigit = false ∧ char ≠ '.' := by
  rcases h with rfl | ⟨mark, sign, digits, hmark, -, -, rfl⟩
  · exact fun char hchar => ⟨(hrest.head?_ne char hchar).1, (hrest.head?_ne char hchar).2.1⟩
  · intro char hchar
    obtain rfl : mark = char := Option.some.inj hchar
    rcases hmark with rfl | rfl <;> decide

theorem head?_fraction_append (hfraction : Fraction fraction) (hexponent : Exponent exponent)
    (hrest : Ends rest) : ∀ char ∈ (fraction ++ (exponent ++ rest)).head?, char.isDigit = false := by
  rcases hfraction with rfl | ⟨digits, -, rfl⟩
  · exact fun char hchar => (head?_exponent_append hexponent hrest char hchar).1
  · intro char hchar
    obtain rfl : '.' = char := Option.some.inj hchar
    decide

theorem takeFraction?_append (hfraction : Fraction fraction) (hexponent : Exponent exponent)
    (hrest : Ends rest) :
    takeFraction? (fraction ++ (exponent ++ rest)) = some (fraction, exponent ++ rest) := by
  have hhead := head?_exponent_append hexponent hrest
  rcases hfraction with rfl | ⟨digits, hdigits, rfl⟩
  · rw [List.nil_append, takeFraction?.eq_2]
    intro others hothers
    exact (hhead '.' (by rw [hothers]; rfl)).2 rfl
  · rw [List.cons_append, takeFraction?, takeDigits?_append hdigits fun char hchar => (hhead char hchar).1]
    rfl

theorem takeExponent?_append (h : Exponent exponent) (hrest : Ends rest) :
    takeExponent? (exponent ++ rest) = some (exponent, rest) := by
  rcases h with rfl | ⟨mark, sign, digits, hmark, hsign, hdigits, rfl⟩
  · cases rest with
    | nil => rfl
    | cons char rest =>
      obtain ⟨-, -, he, hE⟩ := hrest.head?_ne char rfl
      rw [List.nil_append, takeExponent?, if_neg]
      rintro (h | h)
      · exact he h
      · exact hE h
  · have hdigits' := takeDigits?_append hdigits fun char hchar => (hrest.head?_ne char hchar).1
    have hsign' : takeSign (sign ++ (digits ++ rest)) = (sign, digits ++ rest) := by
      rcases hsign with rfl | rfl | rfl
      · obtain ⟨hne, hall⟩ := hdigits
        cases digits with
        | nil => exact absurd rfl hne
        | cons digit digits =>
          have hdigit := hall digit List.mem_cons_self
          rw [List.nil_append, List.cons_append, takeSign.eq_3]
          · rintro _ h
            obtain ⟨rfl, -⟩ := List.cons.inj h
            revert hdigit
            decide
          · rintro _ h
            obtain ⟨rfl, -⟩ := List.cons.inj h
            revert hdigit
            decide
      · rfl
      · rfl
    rw [List.cons_append, takeExponent?, if_pos hmark, List.append_assoc, hsign']
    simp only [hdigits']
    rfl

theorem takeUnsigned?_append (hwhole : Whole whole) (hfraction : Fraction fraction)
    (hexponent : Exponent exponent) (hrest : Ends rest) :
    takeUnsigned? (whole ++ fraction ++ exponent ++ rest) = some (whole ++ fraction ++ exponent, rest) := by
  rw [List.append_assoc, List.append_assoc, takeUnsigned?,
    takeWhole?_append hwhole (head?_fraction_append hfraction hexponent hrest)]
  simp [takeFraction?_append hfraction hexponent hrest, takeExponent?_append hexponent hrest]

/-- The first digit of a number without a sign. -/
theorem Whole.exists_cons (h : Whole whole) : ∃ digit rest, whole = digit :: rest ∧ digit.isDigit = true := by
  rcases h with rfl | ⟨⟨hne, hall⟩, -⟩
  · exact ⟨'0', [], rfl, rfl⟩
  · cases whole with
    | nil => exact absurd rfl hne
    | cons digit whole => exact ⟨digit, whole, rfl, hall digit List.mem_cons_self⟩

theorem takeNumber?_of_number {text : List Char} (h : Number text) (hrest : Ends rest) :
    takeNumber? (text ++ rest) = some (text, rest) := by
  cases h with
  | unsigned hwhole hfraction hexponent =>
    rw [takeNumber?.eq_2, takeUnsigned?_append hwhole hfraction hexponent hrest]
    obtain ⟨digit, others, rfl, hdigit⟩ := hwhole.exists_cons
    rintro _ h
    obtain ⟨rfl, -⟩ := List.cons.inj h
    revert hdigit
    decide
  | negative hwhole hfraction hexponent =>
    rw [List.cons_append, takeNumber?, takeUnsigned?_append hwhole hfraction hexponent hrest]
    rfl

/-- A number begins with a sign or a digit. -/
theorem Number.exists_cons {text : List Char} (h : Number text) :
    ∃ char rest, text = char :: rest ∧ (char = '-' ∨ char.isDigit = true) := by
  cases h with
  | unsigned hwhole _ _ =>
    obtain ⟨digit, others, rfl, hdigit⟩ := hwhole.exists_cons
    exact ⟨digit, _, rfl, .inr hdigit⟩
  | negative _ _ _ => exact ⟨'-', _, rfl, .inl rfl⟩

end Numbers

end OrderedStore.Json
