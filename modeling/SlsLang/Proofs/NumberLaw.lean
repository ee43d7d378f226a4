import SlsLang.Proofs.DiagnosticOrder
import SlsLang.Proofs.TokenPlaces
import SlsLang.Proofs.WholeConstant

namespace SlsLang

/-- The kinds of numeric constants. -/
def TokenKind.isNumeric : TokenKind → Bool
  | double | float | int32 | int64 => true
  | _ => false

/-- What a numeric constant can be spelled with. -/
def numberAlphabet : List Char :=
  ['0', '1', '2', '3', '4', '5', '6', '7', '8', '9', '.', 'f', 'F', 'l', 'L', '\'']

/-- The points of a text that stand behind some other mark, counted place by place. -/
def latePoints (cs : List Char) : Nat :=
  (List.range cs.length).countP fun i => cs[i]? == some '.' && (cs.take i).any isNumberMark

/-- What the slice of a number says of all else about it, where `after` is left behind the slice. -/
structure Lexeme.NumberLaw (l : Lexeme) (after : List Char) : Prop where
  chars : ∀ c ∈ l.slice, c ∈ numberAlphabet
  longest : ∀ c ∈ after.head?, c ∉ numberAlphabet
  text : l.text.toList = l.slice.filter (· != '\'')
  digit : ∃ d more, l.text.toList = d :: more ∧ isDigit d = true
  kind : l.kind =
    if 'f' ∈ l.text.toList ∨ 'F' ∈ l.text.toList then .float
    else if '.' ∈ l.text.toList then .double
    else if 'l' ∈ l.text.toList ∨ 'L' ∈ l.text.toList then .int64
    else .int32
  faults : l.faults =
    (if l.slice.head? = some '\'' then [.leadingSeparator] else []) ++
      List.replicate (latePoints l.text.toList) (.invalidFloatSuffix '.') ++
      if l.slice.getLast? = some '\'' then [.trailingSeparator] else []

/-- A text that starts with a number: with a digit, or with a separator and a digit that no quote
closes. -/
inductive StartsNumber : List Char → Prop
  | digit {d : Char} {more : List Char} (isDigit : isDigit d = true) : StartsNumber (d :: more)
  | separated {d : Char} {more : List Char} (isDigit : isDigit d = true)
      (open_ : more.head? ≠ some '\'') : StartsNumber ('\'' :: d :: more)

theorem isNumberChar_iff {c : Char} : isNumberChar c = true ↔ c ∈ numberAlphabet := by
  have hdigit : isDigit c = true ↔ c ∈ ['0', '1', '2', '3', '4', '5', '6', '7', '8', '9'] := by
    simp only [isDigit_iff, List.mem_cons, List.not_mem_nil, or_false, ← Char.toNat_inj,
      Char.reduceToNat]
    omega
  simp only [isNumberChar, isNumberMark, isSuffix, suffixChars, numberAlphabet, Bool.or_eq_true,
    hdigit, List.contains_iff_mem, beq_iff_eq, List.mem_cons, List.not_mem_nil, or_false, or_assoc]

section Points

theorem latePoints_concat (cs : List Char) (c : Char) :
    latePoints (cs ++ [c]) = latePoints cs +
      if c = '.' ∧ cs.any isNumberMark = true then 1 else 0 := by
  have hearlier : ∀ i ∈ List.range cs.length,
      ((cs ++ [c])[i]? == some '.' && ((cs ++ [c]).take i).any isNumberMark) = true ↔
        (cs[i]? == some '.' && (cs.take i).any isNumberMark) = true := by
    intro i hi
    have hlt := List.mem_range.mp hi
    rw [List.getElem?_append_left hlt, List.take_append_of_le_length (Nat.le_of_lt hlt)]
  rw [latePoints, latePoints, List.length_append, List.length_singleton, List.range_succ,
    List.countP_append, List.countP_congr hearlier]
  simp [List.countP_singleton]

/-- There are as many stray points as points behind another mark. -/
theorem strayPoints_eq (cs : List Char) :
    strayPoints cs = List.replicate (latePoints cs) (.invalidFloatSuffix '.') := by
  induction cs using List.reverseRecOn with
  | nil => rfl
  | append_singleton cs c ih =>
    rw [strayPoints_concat, latePoints_concat, ih]
    split
    · rw [List.replicate_succ']
    · simp

end Points

section Constants

variable {cs : List Char}

theorem StartsNumber.exists_digit (h : StartsNumber cs) :
    ∃ d more, (cs.takeWhile isNumberChar).filter (· != '\'') = d :: more ∧ isDigit d = true := by
  have hdigit : ∀ d more, isDigit d = true →
      ((d :: more).takeWhile isNumberChar).filter (· != '\'') =
        d :: (more.takeWhile isNumberChar).filter (· != '\'') := by
    intro d more hd
    have hne : d ≠ '\'' := by
      rintro rfl
      exact absurd hd (by decide)
    simp [isNumberChar_of_isDigit hd, hne]
  cases h with
  | @digit d more hd => exact ⟨d, _, hdigit d more hd, hd⟩
  | @separated d more hd _ =>
    have hq : isNumberChar '\'' = true := by decide
    rw [List.takeWhile_cons, if_pos hq, List.filter_cons_of_neg (by simp)]
    exact ⟨d, _, hdigit d more hd, hd⟩

/-- A number has a digit, so a separator at its end does not stand in front. -/
theorem StartsNumber.endSeparator_eq (h : StartsNumber cs) :
    endSeparator (cs.takeWhile isNumberChar) =
      if (cs.takeWhile isNumberChar).getLast? = some '\'' then [.trailingSeparator] else [] := by
  have hne : cs.takeWhile isNumberChar ≠ ['\''] := by
    intro hquote
    obtain ⟨d, more, htext, -⟩ := h.exists_digit
    rw [hquote] at htext
    cases htext
  simp only [endSeparator, hne, ne_eq, not_false_eq_true, and_true]

theorem numberLaw_numberConstant (h : StartsNumber cs) :
    (numberConstant cs).NumberLaw (cs.dropWhile isNumberChar) := by
  rw [numberConstant_eq]
  have htext : (String.ofList ((cs.takeWhile isNumberChar).filter (· != '\''))).toList =
      (cs.takeWhile isNumberChar).filter (· != '\'') := String.toList_ofList
  refine ⟨fun c hc => isNumberChar_iff.mp (List.mem_takeWhile_imp hc), fun c hc hin => ?_, htext,
    ?_, ?_, ?_⟩
  · have hstop := head?_dropWhile_eq_false c hc
    rw [isNumberChar_iff.mpr hin] at hstop
    cases hstop
  · rw [htext]
    exact h.exists_digit
  · rw [htext]
    exact numberKind_eq _
  · rw [htext, ← strayPoints_eq, h.endSeparator_eq]
    rfl

theorem nextLexeme_of_startsNumber (h : StartsNumber cs) : nextLexeme cs = numberConstant cs := by
  cases h with
  | @digit d more hd =>
    have hne : ∀ c, isDigit c = false → d ≠ c := by
      rintro c hc rfl
      simp [hd] at hc
    have ho : isOperator d = false := not_contains_of hd (by decide)
    have hp : isPunctuation d = false := not_contains_of hd (by decide)
    rw [nextLexeme_eq_plainLexeme (hne _ (by decide)) (hne _ (by decide))
      fun hs => absurd hs (hne _ (by decide))]
    simp [plainLexeme, ho, hp, hd]
  | @separated d more hd hopen => simp [nextLexeme, startsSeparatedNumber, hd, hopen]

/-- A number that is read takes up what it can, and leaves the rest. -/
theorem numberLaw_of_eq_nextLexeme {l : Lexeme} {behind : List Char}
    (hl : l = nextLexeme (l.slice ++ behind)) (hs : StartsNumber (l.slice ++ behind)) :
    l.NumberLaw behind := by
  have hread : l = numberConstant (l.slice ++ behind) := hl.trans (nextLexeme_of_startsNumber hs)
  have hslice : l.slice = (l.slice ++ behind).takeWhile isNumberChar :=
    (congrArg Lexeme.slice hread).trans (slice_numberConstant _)
  have hbehind : (l.slice ++ behind).dropWhile isNumberChar = behind := by
    have hwhole := List.takeWhile_append_dropWhile (p := isNumberChar) (l := l.slice ++ behind)
    rw [← hslice] at hwhole
    exact List.append_cancel_left hwhole
  have hlaw := numberLaw_numberConstant hs
  rwa [← hread, hbehind] at hlaw

theorem startsNumber_of_isNumeric (h : (nextLexeme cs).kind.isNumeric = true) :
    StartsNumber cs := by
  have hconstant : (nextLexeme cs).kind.isConstant = true := by
    cases hk : (nextLexeme cs).kind <;> simp_all [TokenKind.isNumeric, TokenKind.isConstant]
  rcases constant_cases hconstant with hk | hk | ⟨c, r, rfl, hd | rfl, -⟩
  · simp [hk, TokenKind.isNumeric] at h
  · simp [hk, TokenKind.isNumeric] at h
  · exact .digit hd
  · cases hs : startsSeparatedNumber r with
    | true =>
      cases r with
      | nil => simp [startsSeparatedNumber] at hs
      | cons d more =>
        simp only [startsSeparatedNumber, Bool.and_eq_true, bne_iff_ne] at hs
        exact .separated hs.1 hs.2
    | false => simp [nextLexeme, hs, kind_characterConstant, TokenKind.isNumeric] at h

theorem isNumeric_numberConstant (cs : List Char) :
    (numberConstant cs).kind.isNumeric = true := by
  rcases numberKind_cases ((cs.takeWhile isNumberChar).filter (· != '\'')) with
    hk | hk | hk | hk <;> simp [numberConstant_eq, hk, TokenKind.isNumeric]

/-- Exactly the texts that start with a number are read as one. -/
theorem isNumeric_nextLexeme_iff : (nextLexeme cs).kind.isNumeric = true ↔ StartsNumber cs := by
  refine ⟨startsNumber_of_isNumeric, fun h => ?_⟩
  rw [nextLexeme_of_startsNumber h]
  exact isNumeric_numberConstant cs

theorem startsNumber_quote_iff {r : List Char} : StartsNumber ('\'' :: r) ↔
    ∃ d more, r = d :: more ∧ isDigit d = true ∧ more.head? ≠ some '\'' := by
  constructor
  · intro h
    cases h with
    | digit hd => exact absurd hd (by decide)
    | separated hd hopen => exact ⟨_, _, rfl, hd, hopen⟩
  · rintro ⟨d, more, rfl, hd, hopen⟩
    exact .separated hd hopen

theorem kind_nextLexeme_quote {r : List Char} (h : ¬ StartsNumber ('\'' :: r)) :
    (nextLexeme ('\'' :: r)).kind = .character := by
  cases hs : startsSeparatedNumber r with
  | true =>
    have hnumber : nextLexeme ('\'' :: r) = numberConstant ('\'' :: r) := by simp [nextLexeme, hs]
    have hkind : (nextLexeme ('\'' :: r)).kind.isNumeric = true := by
      rw [hnumber]
      exact isNumeric_numberConstant _
    exact (h (isNumeric_nextLexeme_iff.mp hkind)).elim
  | false =>
    have hcharacter : nextLexeme ('\'' :: r) = characterConstant r := by simp [nextLexeme, hs]
    rw [hcharacter, kind_characterConstant]

end Constants

/-- Of what is wrong with the spelling of a text, what is recorded at the place of a token is what is
wrong with that token. -/
theorem spellingFaults_at {file text : String} {before after : List Reading} {r : Reading}
    (h : (Lexer.start file text).readings = before ++ r :: after) :
    (spellingFaults file text).filter (·.place == r.place) = r.diagnostics := by
  have horder := places_inOrder (reads_start file text)
  rw [h] at horder
  obtain ⟨-, hbehind, hbefore⟩ := List.pairwise_append.mp horder
  have hown : ∀ s : Reading, s.place = r.place →
      s.diagnostics.filter (·.place == r.place) = s.diagnostics := by
    intro s hs
    rw [List.filter_eq_self]
    intro d hd
    simp [(place_of_mem_diagnostics hd).2, Reading.token, hs]
  have hother : ∀ ss : List Reading, (∀ s ∈ ss, s.place ≠ r.place) →
      (ss.flatMap Reading.diagnostics).filter (·.place == r.place) = [] := by
    intro ss hss
    rw [List.filter_eq_nil_iff]
    intro d hd
    obtain ⟨s, hs, hd⟩ := List.mem_flatMap.mp hd
    have hplace : d.place = s.place := (place_of_mem_diagnostics hd).2
    simpa [hplace] using hss s hs
  rw [spellingFaults, h, List.flatMap_append, List.flatMap_cons, List.filter_append,
    List.filter_append, hown r rfl,
    hother before fun s hs => (hbefore s hs r List.mem_cons_self).ne,
    hother after fun s hs => ((List.pairwise_cons.mp hbehind).1 s hs).ne.symm]
  simp

/-- A token is a number exactly where the text goes on with a digit, or with a separator and a digit
that no quote closes; any other quote starts a character constant. A number takes up all that it can
be spelled with, its text is that without separators, and from the text alone follow its kind and,
but for separators at the ends, all that is recorded at its place. -/
theorem tokenize_numbers (file text : String) :
    let rs := (Lexer.start file text).readings
    tokenize file text = rs.map Reading.token ∧
    ∀ before r after, rs = before ++ r :: after →
      let behind := after.flatMap Reading.chars
      let cs := r.lexeme.slice ++ behind
      sourceChars text = before.flatMap Reading.chars ++ r.gap ++ cs ∧
      (r.token.kind.isNumeric = true ↔ StartsNumber cs) ∧
      (∀ rest, cs = '\'' :: rest →
        (r.token.kind.isNumeric = true ↔
          ∃ d more, rest = d :: more ∧ isDigit d = true ∧ more.head? ≠ some '\'') ∧
        (r.token.kind.isNumeric = false → r.token.kind = .character)) ∧
      (r.token.kind.isNumeric = true → r.lexeme.NumberLaw behind ∧
        (spellingFaults file text).filter (·.place == r.token.place) =
          r.lexeme.faults.map fun fault => ⟨.lexical fault, r.token.place⟩) := by
  intro rs
  refine ⟨rfl, fun before r after hrs => ?_⟩
  intro behind cs
  obtain ⟨hstands, -⟩ := stands_of_reads (reads_start file text) hrs
  have hlexeme : r.lexeme = nextLexeme cs := hstands.lexeme
  have hnumeric : r.token.kind.isNumeric = true ↔ StartsNumber cs := by
    rw [Reading.token, hlexeme]
    exact isNumeric_nextLexeme_iff
  refine ⟨?_, hnumeric, fun rest hrest => ?_, fun hk => ⟨?_, spellingFaults_at hrs⟩⟩
  · rw [← flatMap_chars_of_reads (reads_start file text)]
    show rs.flatMap Reading.chars = _
    rw [hrs]
    simp [Reading.chars, cs, behind]
  · rw [hrest, startsNumber_quote_iff] at hnumeric
    refine ⟨hnumeric, fun hk => ?_⟩
    have hnot : ¬ StartsNumber ('\'' :: rest) := by
      rw [startsNumber_quote_iff, ← hnumeric, hk]
      simp
    rw [Reading.token, hlexeme, hrest]
    exact kind_nextLexeme_quote hnot
  · exact numberLaw_of_eq_nextLexeme hlexeme (hnumeric.mp hk)

/-- The suffix stands before the point, though a separator stands between them. -/
example : nextLexeme ['1', 'f', '\'', '.', '2', '\''] =
    ⟨.float, ['1', 'f', '\'', '.', '2', '\''], "1f.2",
      [.invalidFloatSuffix '.', .trailingSeparator]⟩ := by
  decide +kernel

end SlsLang
