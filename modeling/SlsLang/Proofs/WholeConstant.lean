import SlsLang.Proofs.ReadBack

namespace SlsLang

open Lexeme

theorem kind_wordLexeme (cs : List Char) :
    (wordLexeme cs).kind = .keyword ∨ (wordLexeme cs).kind = .identifier := by
  simp only [wordLexeme]
  split
  · exact .inl rfl
  · split <;> exact .inr rfl

theorem plainLexeme_of_isConstant {c : Char} {r : List Char}
    (h : (plainLexeme c r).kind.isConstant = true) :
    isDigit c = true ∧ plainLexeme c r = numberConstant (c :: r) := by
  unfold plainLexeme at h ⊢
  split at h
  next => simp [Lexeme.verbatim, TokenKind.isConstant] at h
  next ho =>
    split at h
    next => simp [Lexeme.verbatim, TokenKind.isConstant] at h
    next hp =>
      split at h
      next hd => exact ⟨hd, by simp [ho, hp, hd]⟩
      next =>
        split at h
        next => simp [Lexeme.verbatim, TokenKind.isConstant] at h
        next => rcases kind_wordLexeme (c :: r) with hk | hk <;> simp [hk, TokenKind.isConstant] at h

/-- A constant is a string, a character or a number, and only a fault has a number start otherwise
than with a digit. -/
theorem constant_cases {cs : List Char} (h : (nextLexeme cs).kind.isConstant = true) :
    (nextLexeme cs).kind = .string ∨ (nextLexeme cs).kind = .character ∨
    ∃ c r, cs = c :: r ∧ (isDigit c = true ∨ c = '\'') ∧ nextLexeme cs = numberConstant cs := by
  revert h
  unfold nextLexeme
  split
  next => simp [Lexeme.endOfFile, TokenKind.isConstant]
  next => simp [lineComment, TokenKind.isConstant]
  next r => simp [kind_blockComment, TokenKind.isConstant]
  next => exact fun _ => .inl rfl
  next r =>
    split
    next => exact fun _ => .inr (.inr ⟨'\'', r, rfl, .inr rfl, rfl⟩)
    next => exact fun _ => .inr (.inl (kind_characterConstant r))
  next c r _ _ _ _ =>
    intro h
    obtain ⟨hd, hn⟩ := plainLexeme_of_isConstant h
    exact .inr (.inr ⟨c, r, rfl, .inl hd, hn⟩)

theorem readBack_string_of_faultless {l : Lexeme} {after : List Char} (h : l.IsString after)
    (hk : l.kind = .string) (hf : l.faults = []) : l.ReadBack := by
  cases h with
  | @closed s v after hc hs ht hf' =>
    have hl : l = ⟨.string, '"' :: (s ++ ['"']), String.ofList v, []⟩ := by
      cases l
      simp_all
    rw [hl]
    exact readBack_string hc
  | line _ _ _ _ hf' => simp [hf] at hf'
  | backslash _ _ _ _ hf' => simp [hf] at hf'

theorem readBack_character_of_faultless {l : Lexeme} {after : List Char} (h : l.IsCharacter after)
    (hk : l.kind = .character) (hf : l.faults = []) : l.ReadBack := by
  cases h with
  | @closed s v after hc hs ht hf' =>
    have hl : l = ⟨.character, '\'' :: (s ++ ['\'']), String.ofList v, []⟩ := by
      cases l
      simp_all
    rw [hl]
    exact readBack_character hc
  | empty _ _ _ hf' => simp [hf] at hf'
  | unclosed _ _ _ _ hf' => simp [hf] at hf'
  | backslash _ _ _ hf' => simp [hf] at hf'

theorem faults_numberConstant_quote (r : List Char) : (numberConstant ('\'' :: r)).faults ≠ [] := by
  have hq : isNumberChar '\'' = true := by decide
  simp [numberConstant_eq, frontSeparator, hq]

/-- A constant that is read whole on its own, and without fault, is read so wherever it stands. -/
theorem readBack_constant {cs : List Char} (hwhole : (nextLexeme cs).slice = cs)
    (hconstant : (nextLexeme cs).kind.isConstant = true) (hf : (nextLexeme cs).faults = []) :
    (nextLexeme cs).ReadBack := by
  obtain ⟨after, _, hp⟩ := nextLexeme_keptOn cs
  rcases constant_cases hconstant with hk | hk | ⟨c, r, hcs, hc, hn⟩
  · rw [Promise, hk] at hp
    exact readBack_string_of_faultless hp.1 hk hf
  · rw [Promise, hk] at hp
    exact readBack_character_of_faultless hp.1 hk hf
  · rw [hn] at hwhole hf
    have hall : ∀ d ∈ cs, isNumberChar d = true :=
      List.takeWhile_eq_self_iff.mp ((slice_numberConstant cs).symm.trans hwhole)
    rw [hcs] at hall hf
    rcases hc with hd | rfl
    · rw [hn, hcs]
      exact readBack_number hd (fun d hd => hall d (List.mem_cons_of_mem c hd)) hf
    · exact (faults_numberConstant_quote r hf).elim

end SlsLang
