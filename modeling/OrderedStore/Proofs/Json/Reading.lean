import OrderedStore.Proofs.Json.Leaves

/-!
# Reading well-formed texts

Every written form of a value is read as this value, and nothing behind it is touched.  The depth that a
reader is given runs out only if it is smaller than the text.

* `Json.Reads` says this of values, items and members at one depth; `Json.reads` is the induction on the
  depth.
* `Json.read?_of_element` reads whole texts.
-/

namespace OrderedStore.Json

variable {depth : Nat} {value : Json} {written text rest : List Char}

/-! ### The first character -/

/-- What a number begins with is no blank and begins nothing else. -/
theorem notMem_of_number {char : Char} (h : char = '-' ∨ char.isDigit = true) :
    char ∉ [' ', '\t', '\n', '\r', '"', '[', ']', '\x7b', '\x7d', 'n', 't', 'f'] := by
  have hall : ∀ other ∈ [' ', '\t', '\n', '\r', '"', '[', ']', '\x7b', '\x7d', 'n', 't', 'f'],
      other ≠ '-' ∧ other.isDigit = false := by simp
  intro hmem
  obtain ⟨hsign, hdigit⟩ := hall char hmem
  rcases h with h | h
  · exact hsign h
  · rw [hdigit] at h
    cases h

theorem isBlank_of_number {char : Char} (h : char = '-' ∨ char.isDigit = true) : isBlank char = false := by
  rw [Bool.eq_false_iff]
  exact fun hblank => notMem_of_number h (List.mem_append_left _ (isBlank_iff.1 hblank))

/-- A value begins neither with a blank nor with what closes an array. -/
theorem Value.exists_cons (h : Value value written) :
    ∃ char others, written = char :: others ∧ isBlank char = false ∧ char ≠ ']' := by
  cases h with
  | number h =>
    obtain ⟨char, others, rfl, hchar⟩ := h.exists_cons
    refine ⟨char, others, rfl, isBlank_of_number hchar, ?_⟩
    rintro rfl
    exact notMem_of_number hchar (by decide)
  | _ => exact ⟨_, _, rfl, by decide, by decide⟩

theorem takeValue?_of_skipBlanks (h : skipBlanks text = skipBlanks rest) :
    takeValue? depth text = takeValue? depth rest := by
  cases depth with
  | zero => rfl
  | succ depth => rw [takeValue?, takeValue?, h]

theorem takeItems?_of_skipBlanks (h : skipBlanks text = skipBlanks rest) :
    takeItems? depth text = takeItems? depth rest := by
  cases depth with
  | zero => rfl
  | succ depth => rw [takeItems?, takeItems?, takeValue?_of_skipBlanks h]

theorem takeMembers?_of_skipBlanks (h : skipBlanks text = skipBlanks rest) :
    takeMembers? depth text = takeMembers? depth rest := by
  cases depth with
  | zero => rfl
  | succ depth => rw [takeMembers?, takeMembers?, h]

theorem takeValue?_number {char : Char} {others : List Char} (hchar : char = '-' ∨ char.isDigit = true)
    (h : skipBlanks text = char :: others) :
    takeValue? (depth + 1) text = (takeNumber? (char :: others)).map fun found => (number found.1, found.2) := by
  have hnot := notMem_of_number hchar
  rw [takeValue?, h]
  split
  case h_7 => rfl
  all_goals
    rename_i heq
    obtain ⟨rfl, -⟩ := List.cons.inj heq
    exact absurd (by decide) hnot

theorem takeValue?_string (others : List Char) :
    takeValue? (depth + 1) ('"' :: others) =
      (takeString? others).map fun found => (string found.1, found.2) := rfl

/-- The reader of an array behind its opening bracket. -/
theorem takeValue?_bracket (others : List Char) :
    takeValue? (depth + 1) ('[' :: others) =
      match skipBlanks others with
      | ']' :: rest => some (array [], rest)
      | rest => (takeItems? depth rest).map fun found => (array found.1, found.2) := rfl

/-- The reader of an object behind its opening brace. -/
theorem takeValue?_brace (others : List Char) :
    takeValue? (depth + 1) ('\x7b' :: others) =
      match skipBlanks others with
      | '\x7d' :: rest => some (object [], rest)
      | rest => (takeMembers? depth rest).map fun found => (object found.1, found.2) := rfl

theorem takeValue?_noItems {others : List Char} (h : skipBlanks others = ']' :: rest) :
    takeValue? (depth + 1) ('[' :: others) = some (array [], rest) := by
  rw [takeValue?_bracket, h]
  rfl

theorem takeValue?_items {others behind : List Char} {char : Char} (h : skipBlanks others = char :: behind)
    (hchar : char ≠ ']') :
    takeValue? (depth + 1) ('[' :: others) =
      (takeItems? depth others).map fun found => (array found.1, found.2) := by
  rw [takeValue?_bracket, ← takeItems?_of_skipBlanks (skipBlanks_skipBlanks others), h]
  split
  · rename_i heq
    exact absurd (List.cons.inj heq).1 hchar
  · rfl

theorem takeValue?_noMembers {others : List Char} (h : skipBlanks others = '\x7d' :: rest) :
    takeValue? (depth + 1) ('\x7b' :: others) = some (object [], rest) := by
  rw [takeValue?_brace, h]
  rfl

theorem takeValue?_members {others behind : List Char} {char : Char} (h : skipBlanks others = char :: behind)
    (hchar : char ≠ '\x7d') :
    takeValue? (depth + 1) ('\x7b' :: others) =
      (takeMembers? depth others).map fun found => (object found.1, found.2) := by
  rw [takeValue?_brace, ← takeMembers?_of_skipBlanks (skipBlanks_skipBlanks others), h]
  split
  · rename_i heq
    exact absurd (List.cons.inj heq).1 hchar
  · rfl

/-! ### One level -/

/-- At this depth the readers read every written form that is shorter. -/
structure Reads (depth : Nat) : Prop where
  value : ∀ {value written rest}, Value value written → Ends rest → written.length < depth →
    takeValue? depth (written ++ rest) = some (value, rest)
  -- One level is spent before the first item, so the closing bracket counts as well.
  items : ∀ {items written rest}, Items items written → written.length + 1 < depth →
    takeItems? depth (written ++ ']' :: rest) = some (items, rest)
  members : ∀ {members written rest}, Members members written → written.length + 1 < depth →
    takeMembers? depth (written ++ '\x7d' :: rest) = some (members, rest)

/-- What closes a value or separates it from the next one. -/
def Closes (rest : List Char) : Prop := ∀ char ∈ rest.head?, char ∈ [',', ']', '\x7d']

theorem closes_cons (char : Char) (rest : List Char) (h : char ∈ [',', ']', '\x7d']) :
    Closes (char :: rest) := by
  rintro _ ⟨⟩
  exact h

theorem closes_nil : Closes [] := by
  rintro _ ⟨⟩

theorem Closes.skipBlanks_eq (h : Closes rest) : skipBlanks rest = rest := by
  cases rest with
  | nil => rfl
  | cons char rest =>
    have hall : ∀ char ∈ [',', ']', '\x7d'], isBlank char = false := by simp [isBlank]
    exact skipBlanks_cons (hall char (h char rfl)) rest

theorem Closes.ends_append (h : Closes rest) {blanks : List Char} (hblanks : Blanks blanks) :
    Ends (blanks ++ rest) := by
  intro char hchar
  cases blanks with
  | nil =>
    have hall : ∀ char ∈ [',', ']', '\x7d'], char ∈ [' ', '\t', '\n', '\r', ',', ']', '\x7d'] := by simp
    exact hall char (h char hchar)
  | cons blank blanks =>
    obtain rfl : blank = char := Option.some.inj hchar
    exact List.mem_append_left _ (hblanks blank List.mem_cons_self)

/-- A value with blanks on both sides is read up to the blanks behind it. -/
theorem Reads.element (hreads : Reads depth) (h : Element value written) (hrest : Closes rest)
    (hdepth : written.length < depth) :
    ∃ left, takeValue? depth (written ++ rest) = some (value, left) ∧ skipBlanks left = rest := by
  cases h with
  | @spaced _ before written behind hbefore h hbehind =>
    have hlength : written.length < depth := by
      simp only [List.length_append] at hdepth
      omega
    refine ⟨behind ++ rest, ?_, ?_⟩
    · rw [← hreads.value h (hrest.ends_append hbehind) hlength]
      refine takeValue?_of_skipBlanks ?_
      rw [List.append_assoc, List.append_assoc, skipBlanks_append hbefore]
    · rw [skipBlanks_append hbehind, hrest.skipBlanks_eq]

/-- The beginning of an element, behind its blanks. -/
theorem Element.exists_cons (h : Element value written) (rest : List Char) :
    ∃ char others, skipBlanks (written ++ rest) = char :: others ∧ char ≠ ']' := by
  cases h with
  | spaced hbefore h hbehind =>
    obtain ⟨char, others, rfl, hblank, hclose⟩ := h.exists_cons
    rw [List.append_assoc, List.append_assoc, skipBlanks_append hbefore, List.cons_append,
      skipBlanks_cons hblank]
    exact ⟨char, _, rfl, hclose⟩

theorem Items.exists_cons {items : List Json} (h : Items items written) (rest : List Char) :
    ∃ char others, skipBlanks (written ++ rest) = char :: others ∧ char ≠ ']' := by
  cases h with
  | last h => exact h.exists_cons rest
  | more h _ =>
    rw [List.append_assoc]
    exact h.exists_cons _

/-- The first name of an object, behind its blanks. -/
theorem Members.exists_quote {members : List (Option (List Char) × Json)} (h : Members members written)
    (rest : List Char) : ∃ others, skipBlanks (written ++ rest) = '"' :: others := by
  have hmember : ∀ {member written}, Member member written → ∀ rest,
      ∃ others, skipBlanks (written ++ rest) = '"' :: others := by
    intro member written h rest
    cases h with
    | named hbefore hname hbetween h =>
      rw [List.append_assoc, skipBlanks_append hbefore, List.cons_append, skipBlanks_cons (by decide)]
      exact ⟨_, rfl⟩
  cases h with
  | last h => exact hmember h rest
  | more h _ =>
    rw [List.append_assoc]
    exact hmember h _

theorem Reads.succ_value (hreads : Reads depth) (h : Value value written) (hrest : Ends rest)
    (hdepth : written.length < depth + 1) :
    takeValue? (depth + 1) (written ++ rest) = some (value, rest) := by
  cases h with
  | null => rfl
  | isTrue => rfl
  | isFalse => rfl
  | number h =>
    obtain ⟨char, others, rfl, hchar⟩ := h.exists_cons
    have hskip := skipBlanks_cons (isBlank_of_number hchar) (others ++ rest)
    rw [List.cons_append, takeValue?_number hchar hskip, ← List.cons_append, takeNumber?_of_number h hrest]
    rfl
  | string h =>
    rw [List.cons_append, takeValue?_string, List.append_assoc, List.singleton_append,
      takeString?_of_body h rest]
    rfl
  | @noItems blanks h =>
    have hskip : skipBlanks (blanks ++ [']'] ++ rest) = ']' :: rest := by
      rw [List.append_assoc, skipBlanks_append h]
      rfl
    rw [List.cons_append, takeValue?_noItems hskip]
  | @items items written h =>
    obtain ⟨char, others, hskip, hclose⟩ := h.exists_cons (']' :: rest)
    have hlength : written.length + 1 < depth := by
      simpa using hdepth
    rw [List.cons_append, List.append_assoc, List.singleton_append, takeValue?_items hskip hclose,
      hreads.items h hlength]
    rfl
  | @noMembers blanks h =>
    have hskip : skipBlanks (blanks ++ ['\x7d'] ++ rest) = '\x7d' :: rest := by
      rw [List.append_assoc, skipBlanks_append h]
      rfl
    rw [List.cons_append, takeValue?_noMembers hskip]
  | @members members written h =>
    obtain ⟨others, hskip⟩ := h.exists_quote ('\x7d' :: rest)
    have hlength : written.length + 1 < depth := by
      simpa using hdepth
    rw [List.cons_append, List.append_assoc, List.singleton_append, takeValue?_members hskip (by decide),
      hreads.members h hlength]
    rfl

/-- An item is followed by a comma and the other items, or by the closing bracket. -/
theorem Reads.succ_items (hreads : Reads depth) {items : List Json} (h : Items items written)
    (hdepth : written.length + 1 < depth + 1) :
    takeItems? (depth + 1) (written ++ ']' :: rest) = some (items, rest) := by
  cases h with
  | last h =>
    obtain ⟨left, hvalue, hskip⟩ := hreads.element h (closes_cons ']' rest (by decide)) (by omega)
    rw [takeItems?, hvalue]
    simp only [hskip]
  | @more item items written others h hothers =>
    rw [List.length_append, List.length_cons] at hdepth
    obtain ⟨left, hvalue, hskip⟩ :=
      hreads.element h (closes_cons ',' (others ++ ']' :: rest) (by decide)) (by omega)
    rw [takeItems?, List.append_assoc, List.cons_append, hvalue]
    simp only [hskip]
    rw [hreads.items hothers (by omega)]
    rfl

/-- The reader of an object behind a member. -/
def takeBehind? (depth : Nat) (member : Option (List Char) × Json) :
    List Char → Option (List (Option (List Char) × Json) × List Char)
  | ',' :: rest => (takeMembers? depth rest).map fun found => (member :: found.1, found.2)
  | '\x7d' :: rest => some ([member], rest)
  | _ => none

/-- A member is read up to the comma or the closing brace behind it. -/
theorem Reads.member (hreads : Reads depth) {member : Option (List Char) × Json} (h : Member member written)
    (hrest : Closes rest) (hdepth : written.length < depth) :
    takeMembers? (depth + 1) (written ++ rest) = takeBehind? depth member rest := by
  cases h with
  | @named name value before quoted between written hbefore hname hbetween h =>
    have hlength : written.length < depth := by
      simp only [List.length_append, List.length_cons] at hdepth
      omega
    obtain ⟨left, hvalue, hskip⟩ := hreads.element h hrest hlength
    have hquote : skipBlanks (before ++ '"' :: (quoted ++ '"' :: (between ++ ':' :: written)) ++ rest) =
        '"' :: (quoted ++ '"' :: (between ++ ':' :: (written ++ rest))) := by
      simp only [List.append_assoc, List.cons_append]
      rw [skipBlanks_append hbefore, skipBlanks_cons (by decide)]
    have hcolon : skipBlanks (between ++ ':' :: (written ++ rest)) = ':' :: (written ++ rest) := by
      rw [skipBlanks_append hbetween, skipBlanks_cons (by decide)]
    rw [takeMembers?, hquote]
    simp only [takeString?_of_body hname, hcolon, hvalue, hskip]
    rfl

theorem Reads.succ_members (hreads : Reads depth) {members : List (Option (List Char) × Json)}
    (h : Members members written) (hdepth : written.length + 1 < depth + 1) :
    takeMembers? (depth + 1) (written ++ '\x7d' :: rest) = some (members, rest) := by
  cases h with
  | last h => exact hreads.member h (closes_cons _ _ (by decide)) (by omega)
  | @more member members written others h hothers =>
    rw [List.length_append, List.length_cons] at hdepth
    rw [List.append_assoc, List.cons_append, hreads.member h (closes_cons _ _ (by decide)) (by omega)]
    rw [takeBehind?, hreads.members hothers (by omega)]
    rfl

/-! ### All levels -/

/-- A text that is shorter than the depth has no more levels than the depth. -/
theorem reads (depth : Nat) : Reads depth := by
  induction depth with
  | zero =>
    exact ⟨fun _ _ hdepth => absurd hdepth (Nat.not_lt_zero _),
      fun _ hdepth => absurd hdepth (Nat.not_lt_zero _), fun _ hdepth => absurd hdepth (Nat.not_lt_zero _)⟩
  | succ depth ih => exact ⟨ih.succ_value, ih.succ_items, ih.succ_members⟩

/-- A well-formed text is read as the value of which it is a written form. -/
theorem read?_of_element (h : Element value text) : read? text = some value := by
  obtain ⟨left, hvalue, hskip⟩ :=
    (reads (text.length + 1)).element h closes_nil (Nat.lt_succ_self _)
  rw [List.append_nil] at hvalue
  rw [read?, hvalue]
  simp only [hskip, List.isEmpty_nil, if_true]

end OrderedStore.Json
