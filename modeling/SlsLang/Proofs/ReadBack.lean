import SlsLang.Proofs.CharClasses
import SlsLang.Proofs.LexemePromise

namespace SlsLang

namespace Lexeme

/-- A lexeme ends before whitespace, a line comment only before a newline, and before the end. -/
def EndsBefore (l : Lexeme) (rest : List Char) : Prop :=
  ∀ c ∈ rest.head?, isWhitespace c = true ∧ (['/', '/'] <+: l.slice → c = '\n')

/-- A lexeme that is read as it is written wherever it is written. -/
structure ReadBack (l : Lexeme) : Prop where
  start : ∃ c r, l.slice = c :: r ∧ isWhitespace c = false ∧ c ≠ '\ufeff'
  faultless : l.faults = []
  read : ∀ rest, l.EndsBefore rest → nextLexeme (l.slice ++ rest) = l

theorem EndsBefore.white {l : Lexeme} {rest : List Char} (h : l.EndsBefore rest) :
    ∀ c ∈ rest.head?, isWhitespace c = true := fun c hc => (h c hc).1

theorem EndsBefore.head_ne {l : Lexeme} {rest : List Char} {d : Char} (h : l.EndsBefore rest)
    (hd : isWhitespace d = false) : rest.head? ≠ some d := by
  intro hh
  have hw := (h d hh).1
  simp [hd] at hw

theorem ReadBack.kind_ne {l : Lexeme} (h : l.ReadBack) : l.kind ≠ .endOfFile := by
  intro hk
  obtain ⟨c, r, hs, hw, _⟩ := h.start
  have hl : nextLexeme (l.slice ++ []) = l := h.read [] (by simp [EndsBefore])
  obtain ⟨after, _, hp⟩ := nextLexeme_keptOn (l.slice ++ [])
  rw [hl, Promise, hk] at hp
  simp [hs] at hp

/-- Only a comment starts with two slashes. -/
theorem ReadBack.kind_of_slashes {l : Lexeme} (h : l.ReadBack) (hs : ['/', '/'] <+: l.slice) :
    l.kind = .comment := by
  obtain ⟨r, hr⟩ := hs
  have hl : nextLexeme (l.slice ++ []) = l := h.read [] (by simp [EndsBefore])
  rw [← hr] at hl
  rw [← hl]
  rfl

end Lexeme

open Lexeme

/-- Only a quote, or a slash before a slash or a star, starts what is no plain lexeme. -/
theorem nextLexeme_eq_plainLexeme {c : Char} {r : List Char} (hq : c ≠ '"') (ha : c ≠ '\'')
    (hs : c = '/' → r.head? ≠ some '/' ∧ r.head? ≠ some '*') :
    nextLexeme (c :: r) = plainLexeme c r := by
  unfold nextLexeme
  split
  next => contradiction
  next h =>
    obtain ⟨rfl, rfl⟩ := List.cons.inj h
    exact absurd rfl (hs rfl).1
  next h =>
    obtain ⟨rfl, rfl⟩ := List.cons.inj h
    exact absurd rfl (hs rfl).2
  next h => exact absurd (List.cons.inj h).1 hq
  next h => exact absurd (List.cons.inj h).1 ha
  next h =>
    obtain ⟨rfl, rfl⟩ := List.cons.inj h
    rfl

/-- A lexeme of one character is read back if whitespace behind the character cannot change it. -/
theorem readBack_verbatim {kind : TokenKind} {c : Char} (hw : isWhitespace c = false)
    (hf : c ≠ '\ufeff') (hq : c ≠ '"') (ha : c ≠ '\'')
    (hplain : ∀ r, plainLexeme c r = .verbatim kind [c]) : (Lexeme.verbatim kind [c]).ReadBack := by
  refine ⟨⟨c, [], rfl, hw, hf⟩, rfl, fun rest hr => ?_⟩
  have hslash : rest.head? ≠ some '/' := hr.head_ne (by decide)
  have hstar : rest.head? ≠ some '*' := hr.head_ne (by decide)
  exact (nextLexeme_eq_plainLexeme hq ha fun _ => ⟨hslash, hstar⟩).trans (hplain rest)

theorem readBack_operator {c : Char} (h : isOperator c = true) :
    (Lexeme.verbatim .operator [c]).ReadBack := by
  have hw : isWhitespace c = false := not_contains_of h (by decide)
  refine readBack_verbatim hw ?_ ?_ ?_ fun r => by simp [plainLexeme, h]
  all_goals
    rintro rfl
    exact absurd h (by decide)

theorem readBack_punctuation {c : Char} (h : isPunctuation c = true) :
    (Lexeme.verbatim .punctuation [c]).ReadBack := by
  have hw : isWhitespace c = false := not_contains_of h (by decide)
  have ho : isOperator c = false := not_contains_of h (by decide)
  refine readBack_verbatim hw ?_ ?_ ?_ fun r => by simp [plainLexeme, h, ho]
  all_goals
    rintro rfl
    exact absurd h (by decide)

theorem readBack_control {c : Char} (h : isControl c = true) (hw : isWhitespace c = false) :
    (Lexeme.verbatim .invalid [c]).ReadBack := by
  have ho : isOperator c = false := not_contains_of h (by decide)
  have hp : isPunctuation c = false := not_contains_of h (by decide)
  have hd := isDigit_of_isControl h
  refine readBack_verbatim hw ?_ ?_ ?_ fun r => by simp [plainLexeme, h, ho, hp, hd]
  all_goals
    rintro rfl
    exact absurd h (by decide)

theorem numberConstant_append {cs rest : List Char} (hcs : ∀ c ∈ cs, isNumberChar c = true)
    (hrest : ∀ c ∈ rest.head?, isNumberChar c = false) :
    numberConstant (cs ++ rest) = numberConstant cs := by
  have hself : cs.takeWhile isNumberChar = cs := List.takeWhile_eq_self_iff.mpr hcs
  exact numberConstant_congr ((takeWhile_append_of_stop hcs hrest).trans hself.symm)

theorem readBack_number {d : Char} {cs : List Char} (hd : isDigit d = true)
    (hcs : ∀ c ∈ cs, isNumberChar c = true) (hf : (numberConstant (d :: cs)).faults = []) :
    (numberConstant (d :: cs)).ReadBack := by
  have hall : ∀ c ∈ d :: cs, isNumberChar c = true :=
    List.forall_mem_cons.mpr ⟨isNumberChar_of_isDigit hd, hcs⟩
  have hslice : (numberConstant (d :: cs)).slice = d :: cs :=
    (slice_numberConstant _).trans (List.takeWhile_eq_self_iff.mpr hall)
  have ho : isOperator d = false := not_contains_of hd (by decide)
  have hp : isPunctuation d = false := not_contains_of hd (by decide)
  have hw : isWhitespace d = false := not_contains_of hd (by decide)
  have hne : ∀ c, isDigit c = false → d ≠ c := by
    rintro c hc rfl
    simp [hd] at hc
  refine ⟨⟨d, cs, hslice, hw, hne _ (by decide)⟩, hf, fun rest hr => ?_⟩
  have hstop : ∀ c ∈ rest.head?, isNumberChar c = false := fun c hc =>
    not_isNumberChar_of_isWhitespace (hr.white c hc)
  calc nextLexeme ((numberConstant (d :: cs)).slice ++ rest)
      = nextLexeme (d :: (cs ++ rest)) := by rw [hslice, List.cons_append]
    _ = plainLexeme d (cs ++ rest) := nextLexeme_eq_plainLexeme (hne _ (by decide))
        (hne _ (by decide)) fun h => absurd h (hne _ (by decide))
    _ = numberConstant (d :: cs ++ rest) := by simp [plainLexeme, ho, hp, hd]
    _ = numberConstant (d :: cs) := numberConstant_append hall hstop

theorem readBack_string {s v : List Char} (h : Contents s v) :
    (⟨.string, '"' :: (s ++ ['"']), String.ofList v, []⟩ : Lexeme).ReadBack := by
  refine ⟨⟨'"', _, rfl, by decide, by decide⟩, rfl, fun rest _ => ?_⟩
  have hread := stringContents_of_contents h ['"'] [] rest
  have hcs : '"' :: (s ++ ['"']) ++ rest = '"' :: (s ++ '"' :: rest) := by simp
  simp only [hcs, nextLexeme, stringConstant, hread]
  simp

/-- A spelled character is no separated number: its closing quote stands too soon. -/
theorem startsSeparatedNumber_of_spelling {s v : List Char} (h : CharacterSpelling s v)
    (rest : List Char) : startsSeparatedNumber (s ++ '\'' :: rest) = false := by
  cases h with
  | plain => simp [startsSeparatedNumber]
  | escape =>
    have hd : isDigit '\\' = false := by decide
    simp [startsSeparatedNumber, hd]

theorem characterConstant_of_spelling {s v : List Char} (h : CharacterSpelling s v)
    (rest : List Char) : characterConstant (s ++ '\'' :: rest) =
      ⟨.character, '\'' :: (s ++ ['\'']), String.ofList v, []⟩ := by
  cases h with
  | @plain c hb hn =>
    rw [List.singleton_append, characterConstant]
    · rfl
    · exact hn
    · exact fun _ _ hc => absurd hc hb
  | @escape c hn =>
    simp only [List.cons_append, List.nil_append, characterConstant, if_neg hn]
    rfl

theorem readBack_character {s v : List Char} (h : CharacterSpelling s v) :
    (⟨.character, '\'' :: (s ++ ['\'']), String.ofList v, []⟩ : Lexeme).ReadBack := by
  refine ⟨⟨'\'', _, rfl, by decide, by decide⟩, rfl, fun rest _ => ?_⟩
  have hcs : '\'' :: (s ++ ['\'']) ++ rest = '\'' :: (s ++ '\'' :: rest) := by simp
  simp only [hcs, nextLexeme, startsSeparatedNumber_of_spelling h, characterConstant_of_spelling h]
  simp

/-- A line comment is read up to the end of its line, whatever the next line holds. -/
theorem nextLexeme_lineComment {body after : List Char} (hn : '\n' ∉ body) (ha : AtLineEnd after) :
    nextLexeme ('/' :: '/' :: body ++ after) = ⟨.comment, '/' :: '/' :: body,
      String.ofList (dropTrailingReturns ('/' :: '/' :: body)), []⟩ := by
  have hline : ∀ c ∈ '/' :: '/' :: body, (c != '\n') = true := by
    intro c hc
    rw [bne_iff_ne]
    rintro rfl
    simp [hn] at hc
  have hstop : ∀ c ∈ after.head?, (c != '\n') = false := by
    rcases ha with rfl | ha
    · simp
    · simp [ha]
  have hread : nextLexeme ('/' :: '/' :: body ++ after) =
      lineComment ('/' :: '/' :: body ++ after) := rfl
  rw [hread, lineComment, takeWhile_append_of_stop hline hstop]

theorem readBack_lineComment {body : List Char} (hn : '\n' ∉ body)
    (hr : body.getLast? ≠ some '\r') :
    (Lexeme.verbatim .comment ('/' :: '/' :: body)).ReadBack := by
  refine ⟨⟨'/', _, rfl, by decide, by decide⟩, rfl, fun rest he => ?_⟩
  have hend : AtLineEnd rest := by
    cases hrest : rest.head? with
    | none => exact .inl (List.head?_eq_none_iff.mp hrest)
    | some c => exact .inr (hrest.trans (congrArg some ((he c hrest).2 ⟨body, rfl⟩)))
  have hlast : ('/' :: '/' :: body).getLast? ≠ some '\r' := by
    cases body with
    | nil => decide
    | cons b body => simpa using hr
  have hread := nextLexeme_lineComment hn hend
  rwa [dropTrailingReturns_eq_self hlast] at hread

/-- A block comment is read up to its first close, whatever stands behind. -/
theorem nextLexeme_blockComment {body : List Char} (h : ¬ HasClose (body ++ ['*']))
    (after : List Char) : nextLexeme ('/' :: '*' :: (body ++ ['*', '/']) ++ after) =
      .verbatim .comment ('/' :: '*' :: (body ++ ['*', '/'])) := by
  have hclose := throughClose?_of_first h ['*', '/'] after
  have hcs : '/' :: '*' :: (body ++ ['*', '/']) ++ after =
      '/' :: '*' :: (body ++ '*' :: '/' :: after) := by simp
  simp only [hcs, nextLexeme, blockComment, hclose]
  rfl

theorem readBack_blockComment {body : List Char} (h : ¬ HasClose (body ++ ['*'])) :
    (Lexeme.verbatim .comment ('/' :: '*' :: (body ++ ['*', '/']))).ReadBack :=
  ⟨⟨'/', _, rfl, by decide, by decide⟩, rfl, fun rest _ => nextLexeme_blockComment h rest⟩

theorem isIdentifier_chars {word : String} (h : isIdentifier word = true) :
    ∃ c r, word.toList = c :: r ∧ isIdentifierStart c = true ∧
      ∀ d ∈ c :: r, isWordChar d = true := by
  unfold isIdentifier at h
  split at h
  next => simp at h
  next c r hw =>
    simp only [Bool.and_eq_true, List.all_eq_true] at h
    obtain ⟨⟨hc, hr⟩, _⟩ := h
    have hstart := isWordChar_of_isIdentifierChar (isIdentifierChar_of_isIdentifierStart hc)
    exact ⟨c, r, hw, hc, List.forall_mem_cons.mpr
      ⟨hstart, fun d hd => isWordChar_of_isIdentifierChar (hr d hd)⟩⟩

theorem isIdentifier_of_isKeyword {word : String} (h : isKeyword word = true) :
    isIdentifier word = true := by
  have hall : ∀ w ∈ keywords, isIdentifier w = true := by decide
  exact hall word (by simpa [isKeyword] using h)

def wordForm (word : String) : Lexeme :=
  ⟨if isKeyword word then .keyword else .identifier, word.toList, word, []⟩

theorem wordLexeme_append {word : String} {rest : List Char} (h : isIdentifier word = true)
    (hrest : ∀ c ∈ rest.head?, isWordChar c = false) :
    wordLexeme (word.toList ++ rest) = wordForm word := by
  obtain ⟨c, r, hword, _, hall⟩ := isIdentifier_chars h
  rw [← hword] at hall
  simp only [wordLexeme, Lexeme.verbatim, takeWhile_append_of_stop hall hrest, String.ofList_toList,
    if_pos h, wordForm]
  split <;> rfl

theorem readBack_word {word : String} (h : isIdentifier word = true) : (wordForm word).ReadBack := by
  obtain ⟨c, r, hword, hc, _⟩ := isIdentifier_chars h
  have ho : isOperator c = false := not_contains_of hc (by decide)
  have hp : isPunctuation c = false := not_contains_of hc (by decide)
  have hw : isWhitespace c = false := not_contains_of hc (by decide)
  have hd := isDigit_of_isIdentifierStart hc
  have hi := isControl_of_isIdentifierStart hc
  have hne : ∀ d, isIdentifierStart d = false → c ≠ d := by
    rintro d hd rfl
    simp [hc] at hd
  refine ⟨⟨c, r, hword, hw, hne _ (by decide)⟩, rfl, fun rest he => ?_⟩
  have hstop : ∀ d ∈ rest.head?, isWordChar d = false := fun d hd =>
    not_isWordChar_of_isWhitespace (he.white d hd)
  calc nextLexeme (word.toList ++ rest)
      = nextLexeme (c :: (r ++ rest)) := by rw [hword, List.cons_append]
    _ = plainLexeme c (r ++ rest) := nextLexeme_eq_plainLexeme (hne _ (by decide))
        (hne _ (by decide)) fun hs => absurd hs (hne _ (by decide))
    _ = wordLexeme (word.toList ++ rest) := by simp [plainLexeme, ho, hp, hd, hi, hword]
    _ = wordForm word := wordLexeme_append h hstop

end SlsLang
