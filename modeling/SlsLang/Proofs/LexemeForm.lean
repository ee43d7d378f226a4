import SlsLang.Proofs.WrittenText

namespace SlsLang

/-- A digit, then digits, points and suffixes, where no point comes after another mark. -/
structure IsNumberText (cs : List Char) : Prop where
  digit : ∃ d r, cs = d :: r ∧ isDigit d = true
  chars : ∀ c ∈ cs, isDigit c = true ∨ c = '.' ∨ isSuffix c = true
  points : ∀ xs ys, cs = xs ++ '.' :: ys → ∀ c ∈ xs, c ≠ '.' ∧ isSuffix c = false

/-- A character as it is written between two quotes. -/
def escapeChar (quote c : Char) : List Char :=
  if c = '\n' then ['\\', 'n'] else if c = '\\' ∨ c = quote then ['\\', c] else [c]

/-- What a lexeme without fault can be written for. -/
inductive LexemeForm
  | keyword (word : String) (reserved : isKeyword word = true)
  | identifier (word : String) (wellFormed : isIdentifier word = true)
      (free : isKeyword word = false)
  | operator (c : Char) (class_ : isOperator c = true)
  | punctuation (c : Char) (class_ : isPunctuation c = true)
  | number (digits : List Char) (wellFormed : IsNumberText digits)
  | string (value : String)
  | character (c : Char)
  | unknownEscape (c : Char) (newline : c ≠ '\n')
      (unknown : c ∉ ['n', 't', 'r', '0', '\\', '"', '\''])
  | lineComment (body : List Char) (newline : '\n' ∉ body) (returns : body.getLast? ≠ some '\r')
  | blockComment (body : List Char) (first : ¬ HasClose (body ++ ['*']))
  | control (c : Char) (class_ : isControl c = true) (black : isWhitespace c = false)

namespace LexemeForm

def kind : LexemeForm → TokenKind
  | keyword _ _ => .keyword
  | identifier _ _ _ => .identifier
  | operator _ _ => .operator
  | punctuation _ _ => .punctuation
  | number digits _ => numberKind digits
  | string _ => .string
  | character _ | unknownEscape _ _ _ => .character
  | lineComment _ _ _ | blockComment _ _ => .comment
  | control _ _ _ => .invalid

def spelling : LexemeForm → List Char
  | keyword word _ | identifier word _ _ => word.toList
  | operator c _ | punctuation c _ | control c _ _ => [c]
  | number digits _ => digits
  | string value => '"' :: (value.toList.flatMap (escapeChar '"') ++ ['"'])
  | character c => '\'' :: (escapeChar '\'' c ++ ['\''])
  | unknownEscape c _ _ => ['\'', '\\', c, '\'']
  | lineComment body _ _ => '/' :: '/' :: body
  | blockComment body _ => '/' :: '*' :: (body ++ ['*', '/'])

/-- A literal has its value for its text, and all else what is written. -/
def text : LexemeForm → String
  | keyword word _ | identifier word _ _ | string word => word
  | character c => String.ofList [c]
  | unknownEscape c _ _ => String.ofList ['\\', c]
  | form => String.ofList form.spelling

def isLineComment : LexemeForm → Bool
  | lineComment _ _ _ => true
  | _ => false

def lexeme (form : LexemeForm) : Lexeme := ⟨form.kind, form.spelling, form.text, []⟩

end LexemeForm

theorem strayPoints_eq_nil {cs : List Char} (h : IsNumberText cs) : strayPoints cs = [] := by
  rw [strayPoints, List.map_eq_nil_iff, List.filter_eq_nil_iff]
  intro c hc hpoint
  obtain rfl : c = '.' := by simpa using hpoint
  cases hd : cs.dropWhile (!isNumberMark ·) with
  | nil => simp [hd] at hc
  | cons m r =>
    have hm : isNumberMark m = true := by
      have := List.head?_dropWhile_not (!isNumberMark ·) cs
      simpa [hd] using this
    have hr : '.' ∈ r := by simpa [hd] using hc
    obtain ⟨xs, ys, rfl⟩ := List.append_of_mem hr
    have hcs : cs = (cs.takeWhile (!isNumberMark ·) ++ m :: xs) ++ '.' :: ys := by
      conv_lhs => rw [← List.takeWhile_append_dropWhile (p := (!isNumberMark ·)) (l := cs), hd]
      simp
    obtain ⟨hne, hs⟩ := h.points _ _ hcs m (by simp)
    simp [isNumberMark, hne, hs] at hm

theorem isNumberText_chars {cs : List Char} (h : IsNumberText cs) :
    ∀ c ∈ cs, isNumberChar c = true ∧ c ≠ '\'' := by
  intro c hc
  rcases h.chars c hc with hd | rfl | hs
  · refine ⟨isNumberChar_of_isDigit hd, ?_⟩
    rintro rfl
    exact absurd hd (by decide)
  · decide
  · refine ⟨by simp [isNumberChar, isNumberMark, hs], ?_⟩
    rintro rfl
    exact absurd hs (by decide)

theorem numberConstant_of_isNumberText {cs : List Char} (h : IsNumberText cs) :
    numberConstant cs = ⟨numberKind cs, cs, String.ofList cs, []⟩ := by
  have hchars := isNumberText_chars h
  have hself : cs.takeWhile isNumberChar = cs :=
    List.takeWhile_eq_self_iff.mpr fun c hc => (hchars c hc).1
  have hfilter : cs.filter (· != '\'') = cs :=
    List.filter_eq_self.mpr fun c hc => by simpa using (hchars c hc).2
  have hhead : cs.head? ≠ some '\'' := fun hh => (hchars _ (List.mem_of_head? hh)).2 rfl
  have hlast : cs.getLast? ≠ some '\'' := fun hh => (hchars _ (List.mem_of_getLast? hh)).2 rfl
  simp [numberConstant_eq, frontSeparator, endSeparator, hself, hfilter, hhead, hlast,
    strayPoints_eq_nil h]

theorem contents_escape (cs : List Char) : Contents (cs.flatMap (escapeChar '"')) cs := by
  induction cs with
  | nil => exact .nil
  | cons c cs ih =>
    rw [List.flatMap_cons, escapeChar]
    split
    next hn =>
      subst c
      exact .escape (c := 'n') (by decide) ih
    next hn =>
      split
      next hc =>
        have he : unescape c = [c] := by rcases hc with rfl | rfl <;> rfl
        have := Contents.escape hn ih
        rwa [he] at this
      next hc =>
        rw [not_or] at hc
        exact .plain hc.2 hc.1 hn ih

theorem characterSpelling_escape (c : Char) : CharacterSpelling (escapeChar '\'' c) [c] := by
  rw [escapeChar]
  split
  next hn =>
    subst c
    exact .escape (c := 'n') (by decide)
  next hn =>
    split
    next hc =>
      have he : unescape c = [c] := by rcases hc with rfl | rfl <;> rfl
      have := CharacterSpelling.escape hn
      rwa [he] at this
    next hc =>
      rw [not_or] at hc
      exact .plain hc.1 hn

theorem unescape_of_unknown {c : Char} (h : c ∉ ['n', 't', 'r', '0', '\\', '"', '\'']) :
    unescape c = ['\\', c] := by
  simp only [List.mem_cons, List.not_mem_nil, or_false, not_or] at h
  obtain ⟨hn, ht, hr, hz, hb, hq, ha⟩ := h
  have he : escaped? c = none := by
    unfold escaped?
    split <;> simp_all
  rw [unescape, he]

/-- What is written for a form is read back, with the kind and the text of the form. -/
theorem readBack_lexeme (form : LexemeForm) : form.lexeme.ReadBack := by
  cases form with
  | keyword word h =>
    have hr := readBack_word (isIdentifier_of_isKeyword h)
    rwa [wordForm, if_pos h] at hr
  | identifier word h hk =>
    have hr := readBack_word h
    rwa [wordForm, if_neg (by simp [hk])] at hr
  | operator c h => exact readBack_operator h
  | punctuation c h => exact readBack_punctuation h
  | number digits h =>
    obtain ⟨d, r, rfl, hd⟩ := h.digit
    have hn := numberConstant_of_isNumberText h
    have hchars : ∀ c ∈ r, isNumberChar c = true := fun c hc =>
      (isNumberText_chars h c (List.mem_cons_of_mem d hc)).1
    have hr := readBack_number hd hchars (by rw [hn])
    rwa [hn] at hr
  | string value =>
    have hr := readBack_string (contents_escape value.toList)
    rwa [String.ofList_toList] at hr
  | character c => exact readBack_character (characterSpelling_escape c)
  | unknownEscape c hn hu =>
    have hr := readBack_character (CharacterSpelling.escape hn)
    rwa [unescape_of_unknown hu] at hr
  | lineComment body hn hr => exact readBack_lineComment hn hr
  | blockComment body h => exact readBack_blockComment h
  | control c h hw => exact readBack_control h hw

/-- A form with the whitespace written after it. -/
structure SpacedForm where
  form : LexemeForm
  gap : List Char
  gap_ne_nil : gap ≠ []
  white : ∀ c ∈ gap, isWhitespace c = true
  newline : form.isLineComment = true → gap.head? = some '\n'

def writeForms (fs : List SpacedForm) : List Char := fs.flatMap fun f => f.form.spelling ++ f.gap

theorem isLineComment_of_slashes {form : LexemeForm} (h : ['/', '/'] <+: form.spelling) :
    form.isLineComment = true := by
  have hk : form.kind = .comment := (readBack_lexeme form).kind_of_slashes h
  cases form with
  | lineComment body hn hr => rfl
  | blockComment body hf => simp [LexemeForm.spelling] at h
  | number digits hd =>
    rcases numberKind_cases digits with hn | hn | hn | hn <;> simp [LexemeForm.kind, hn] at hk
  | _ => simp [LexemeForm.kind] at hk

theorem writes_writeForms (fs : List SpacedForm) :
    Writes (fs.map (·.form.lexeme)) (writeForms fs) := by
  induction fs with
  | nil => exact .nil (by simp [writeForms])
  | cons f fs ih =>
    obtain ⟨c, gap, hg⟩ := List.exists_cons_of_ne_nil f.gap_ne_nil
    have hcs : writeForms (f :: fs) = [] ++ (f.form.lexeme.slice ++ (f.gap ++ writeForms fs)) := by
      simp [writeForms, LexemeForm.lexeme]
    rw [hcs]
    refine .cons (by simp) ?_ (ih.white_append f.white)
    intro d hd
    obtain rfl : c = d := by simpa [hg] using hd
    refine ⟨f.white c (by simp [hg]), fun hp => ?_⟩
    have hn := f.newline (isLineComment_of_slashes hp)
    simpa [hg] using hn

/-- Whatever forms are written, in any order and with any whitespace, exactly these are read. -/
theorem tokenize_writeForms (file : String) (fs : List SpacedForm) :
    let text := String.ofList (writeForms fs)
    (Lexer.start file text).readings.flatMap Reading.diagnostics = [] ∧
    (tokenize file text).map (fun t => (t.kind, t.text)) =
      fs.map (fun f => (f.form.kind, f.form.text)) ++ [(.endOfFile, "")] := by
  intro text
  have hwrites : Writes (fs.map (·.form.lexeme)) text.toList := by
    rw [String.toList_ofList]
    exact writes_writeForms fs
  have hback : ∀ l ∈ fs.map (·.form.lexeme), l.ReadBack := by
    intro l hl
    obtain ⟨f, _, rfl⟩ := List.mem_map.mp hl
    exact readBack_lexeme f.form
  have hread := map_lexeme_readings_start file hwrites hback
  refine ⟨flatMap_diagnostics_eq_nil hread hback, ?_⟩
  rw [map_kind_text_tokenize hread, List.map_map]
  rfl

end SlsLang
