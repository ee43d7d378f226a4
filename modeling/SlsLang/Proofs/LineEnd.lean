import SlsLang.Proofs.ReadBack

namespace SlsLang

section Scanners

variable (cs b : List Char)

theorem lineComment_append_newline : lineComment (cs ++ '\n' :: b) = lineComment cs := by
  simp only [lineComment, takeWhile_append_cons cs b (p := (· != '\n')) (x := '\n') rfl]

theorem numberConstant_append_newline : numberConstant (cs ++ '\n' :: b) = numberConstant cs := by
  have hp : isNumberChar '\n' = false := by decide
  exact numberConstant_congr (takeWhile_append_cons cs b hp)

theorem wordLexeme_append_newline : wordLexeme (cs ++ '\n' :: b) = wordLexeme cs := by
  have hp : isWordChar '\n' = false := by decide
  rw [wordLexeme, takeWhile_append_cons cs b hp, wordLexeme]

/-- A backslash before the end of a line escapes nothing, as at the end of a text. -/
theorem stringContents_append_newline (slice value : List Char) :
    stringContents slice value (cs ++ '\n' :: b) = stringContents slice value cs := by
  fun_induction stringContents slice value cs with
  | case1 => rfl
  | case2 => rfl
  | case3 => rfl
  | case4 => rfl
  | case5 => rfl
  | case6 slice value c r hn ih =>
    rw [List.cons_append, List.cons_append, stringContents, ih]
    exact hn
  | case7 slice value c r hquote hnewline hend hescaped hescape ih =>
    -- A backslash falls under the cases before this one, whatever follows it.
    have hc : c ≠ '\\' := by
      intro hc
      cases r with
      | nil => exact hend hc rfl
      | cons d r => exact hescape d r hc rfl
    rw [List.cons_append, stringContents, ih]
    · exact hquote
    · exact hnewline
    · exact fun h => absurd h hc
    · exact fun _ h => absurd h hc
    · exact fun _ _ h => absurd h hc

theorem closeCharacter_append_newline (spelling value : List Char) :
    closeCharacter spelling value (cs ++ '\n' :: b) = closeCharacter spelling value cs := by
  cases cs with
  | nil => rfl
  | cons c cs =>
    by_cases h : c = '\''
    · subst h
      rfl
    · rw [List.cons_append, closeCharacter, closeCharacter]
      · exact fun _ hc => h (List.cons.inj hc).1
      · exact fun _ hc => h (List.cons.inj hc).1

theorem characterConstant_append_newline :
    characterConstant (cs ++ '\n' :: b) = characterConstant cs := by
  fun_cases characterConstant cs with
  | case1 => rfl
  | case2 => rfl
  | case3 r => rfl
  | case4 c r hn =>
    rw [List.cons_append, List.cons_append, characterConstant, if_neg hn,
      closeCharacter_append_newline]
  | case5 c r hnewline hescape =>
    cases r with
    | nil =>
      -- A lone backslash is the character itself, before the newline as before the end.
      by_cases hc : c = '\\'
      · subst hc
        rfl
      · rw [List.cons_append, List.nil_append, characterConstant]
        · rfl
        · exact hnewline
        · exact fun _ _ h => absurd h hc
    | cons d r =>
      have hc : c ≠ '\\' := fun h => hescape d r h rfl
      rw [List.cons_append, characterConstant, closeCharacter_append_newline]
      · exact hnewline
      · exact fun _ _ h => absurd h hc

theorem startsSeparatedNumber_append_newline :
    startsSeparatedNumber (cs ++ '\n' :: b) = startsSeparatedNumber cs := by
  match cs with
  | [] => rfl
  | [d] => rfl
  | d :: e :: r => rfl

theorem throughClose?_append {passed r slice : List Char} (more : List Char)
    (h : throughClose? passed r = some slice) : throughClose? passed (r ++ more) = some slice := by
  fun_induction throughClose? passed r with
  | case1 => simp at h
  | case2 passed r => exact h
  | case3 passed c r hc ih =>
    have hclose : ¬ ∃ s, c = '*' ∧ r ++ more = '/' :: s := by
      rintro ⟨s, rfl, hs⟩
      cases r with
      | nil => simp [throughClose?] at h
      | cons d r =>
        obtain ⟨rfl, -⟩ := List.cons.inj hs
        exact hc r rfl rfl
    rw [List.cons_append, throughClose?_cons hclose, ih h]

/-- What stands behind a block comment does not matter, once it has a close. -/
theorem blockComment_append {r : List Char} (more : List Char)
    (hopen : .unterminatedComment ∉ (blockComment r).faults) :
    blockComment (r ++ more) = blockComment r := by
  unfold blockComment at hopen ⊢
  cases h : throughClose? ['*', '/'] r with
  | none => simp [h] at hopen
  | some slice => rw [throughClose?_append more h]

end Scanners

theorem plainLexeme_append_newline (c : Char) (r b : List Char) :
    plainLexeme c (r ++ '\n' :: b) = plainLexeme c r := by
  have hnumber := numberConstant_append_newline (c :: r) b
  have hword := wordLexeme_append_newline (c :: r) b
  rw [List.cons_append] at hnumber hword
  rw [plainLexeme, hnumber, hword, plainLexeme]

/-- A lexeme reads the end of its line like the end of its text. Only a block comment without a close
reads on. -/
theorem nextLexeme_append_newline {cs : List Char} (b : List Char) (hcs : cs ≠ [])
    (hopen : .unterminatedComment ∉ (nextLexeme cs).faults) :
    nextLexeme (cs ++ '\n' :: b) = nextLexeme cs := by
  fun_cases nextLexeme cs with
  | case1 => exact absurd rfl hcs
  | case2 r => exact lineComment_append_newline ('/' :: '/' :: r) b
  | case3 r =>
    have hblock : .unterminatedComment ∉ (blockComment r).faults := hopen
    exact blockComment_append _ hblock
  | case4 r =>
    simp only [List.cons_append, nextLexeme, stringConstant, stringContents_append_newline]
  | case5 r hn =>
    have hnumber := numberConstant_append_newline ('\'' :: r) b
    rw [List.cons_append, nextLexeme, startsSeparatedNumber_append_newline, if_pos hn]
    exact hnumber
  | case6 r hn =>
    rw [List.cons_append, nextLexeme, startsSeparatedNumber_append_newline, if_neg hn,
      characterConstant_append_newline]
  | case7 c r h1 h2 h3 h4 =>
    have hhead : c = '/' → (r ++ '\n' :: b).head? ≠ some '/' ∧ (r ++ '\n' :: b).head? ≠ some '*' := by
      intro hc
      cases r with
      | nil => simp
      | cons d r =>
        exact ⟨fun hd => h1 r hc (by simpa using hd), fun hd => h2 r hc (by simpa using hd)⟩
    rw [List.cons_append, nextLexeme_eq_plainLexeme h3 h4 hhead, plainLexeme_append_newline]

end SlsLang
