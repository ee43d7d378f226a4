import SlsLang.Lexeme
import SlsLang.NumberLexeme
import SlsLang.QuotedLexeme
import SlsLang.Word

namespace SlsLang

/-- The lexeme that starts with a character no bracket or quote introduces. -/
def plainLexeme (c : Char) (r : List Char) : Lexeme :=
  if isOperator c then .verbatim .operator [c]
  else if isPunctuation c then .verbatim .punctuation [c]
  else if isDigit c then numberConstant (c :: r)
  else if isControl c then .verbatim .invalid [c]
  else wordLexeme (c :: r)

/-- The lexeme at the head of a text that starts with no whitespace. -/
def nextLexeme : List Char → Lexeme
  | [] => .endOfFile
  | '/' :: '/' :: r => lineComment ('/' :: '/' :: r)
  | '/' :: '*' :: r => blockComment r
  | '"' :: r => stringConstant r
  | '\'' :: r => if startsSeparatedNumber r then numberConstant ('\'' :: r) else characterConstant r
  | c :: r => plainLexeme c r

theorem numberConstant_slice_ne_nil {c : Char} {r : List Char} (h : isNumberChar c = true) :
    (numberConstant (c :: r)).slice ≠ [] := by
  rw [slice_numberConstant, List.takeWhile_cons_of_pos h]
  exact List.cons_ne_nil c _

theorem wordLexeme_slice (cs : List Char) : (wordLexeme cs).slice = cs.takeWhile isWordChar := by
  simp only [wordLexeme]
  split
  · rfl
  · split <;> rfl

theorem throughClose?_ne_nil {passed r slice : List Char} (h : throughClose? passed r = some slice) :
    slice ≠ [] := by
  fun_induction throughClose? passed r with
  | case1 => simp at h
  | case2 passed r => cases h; simp
  | case3 passed c r hc ih => exact ih h

theorem stringContents_slice_ne_nil {slice value cs : List Char} (h : slice ≠ []) :
    (stringContents slice value cs).slice ≠ [] := by
  fun_induction stringContents slice value cs <;> simp_all

theorem closeCharacter_slice_ne_nil (spelling value rest : List Char) :
    (closeCharacter spelling value rest).slice ≠ [] := by
  unfold closeCharacter
  split <;> simp

theorem characterConstant_slice_ne_nil (cs : List Char) : (characterConstant cs).slice ≠ [] := by
  unfold characterConstant
  split
  · simp
  · simp
  · split <;> exact closeCharacter_slice_ne_nil _ _ _
  · exact closeCharacter_slice_ne_nil _ _ _

/-- Past whitespace, every lexeme takes up something of a text that is left. -/
theorem nextLexeme_slice_ne_nil {c : Char} {r : List Char} (h : isWhitespace c = false) :
    (nextLexeme (c :: r)).slice ≠ [] := by
  unfold nextLexeme
  split
  next => contradiction
  next => simp [lineComment]
  next =>
    unfold blockComment
    split
    next hc => exact throughClose?_ne_nil hc
    next => simp [Lexeme.verbatim]
  next => exact stringContents_slice_ne_nil (by simp)
  next =>
    split
    · exact numberConstant_slice_ne_nil (by decide)
    · exact characterConstant_slice_ne_nil _
  next he =>
    cases he
    unfold plainLexeme
    split
    · simp [Lexeme.verbatim]
    split
    · simp [Lexeme.verbatim]
    split
    next hd => exact numberConstant_slice_ne_nil (isNumberChar_of_isDigit hd)
    next ho hp _ =>
      split
      · simp [Lexeme.verbatim]
      · have hword : isWordChar c = true := by simp_all [isWordChar]
        rw [wordLexeme_slice, List.takeWhile_cons_of_pos hword]
        exact List.cons_ne_nil c _

end SlsLang
