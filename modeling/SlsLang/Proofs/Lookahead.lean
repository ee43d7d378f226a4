import SlsLang.Proofs.LineEnd

namespace SlsLang

open Lexeme

/-- Texts before which a lexeme stops alike: they start with the same character, or the second with
whitespace. -/
def StopsAlike (xs ys : List Char) : Prop :=
  xs.head? = ys.head? ∨ ∃ c ∈ ys.head?, isWhitespace c = true

namespace StopsAlike

variable {xs ys : List Char}

theorem stop (h : StopsAlike xs ys) {p : Char → Bool}
    (hp : ∀ c, isWhitespace c = true → p c = false)
    (hx : ∀ c ∈ xs.head?, p c = false) : ∀ c ∈ ys.head?, p c = false := by
  rcases h with h | ⟨w, hy, hw⟩
  · rwa [← h]
  · intro c hc
    obtain rfl : w = c := Option.mem_unique hy hc
    exact hp w hw

theorem head_ne (h : StopsAlike xs ys) {d : Char} (hd : isWhitespace d = false)
    (hx : xs.head? ≠ some d) : ys.head? ≠ some d := by
  rcases h with h | ⟨w, hy, hw⟩
  · rwa [← h]
  · rintro hc
    obtain rfl : w = d := Option.mem_unique hy hc
    simp [hd] at hw

end StopsAlike

/-- Texts before which a lexeme ends alike: they start with the same character, or the one with the
slash of a comment and the other with a space. -/
def EndsAlike (xs ys : List Char) : Prop :=
  xs.head? = ys.head? ∨ xs.head? = some '/' ∧ ys.head? = some ' '

namespace EndsAlike

variable {xs ys : List Char}

theorem stopsAlike (h : EndsAlike xs ys) : StopsAlike xs ys :=
  h.imp_right fun hspace => ⟨' ', hspace.2, by decide⟩

theorem atLineEnd (h : EndsAlike xs ys) (hx : AtLineEnd xs) : AtLineEnd ys := by
  rcases h with h | ⟨hslash, _⟩
  · rcases hx with rfl | hx
    · exact .inl (List.head?_eq_none_iff.mp h.symm)
    · exact .inr (h ▸ hx)
  · rcases hx with rfl | hx
    · simp at hslash
    · simp [hx] at hslash

end EndsAlike

/-- The faults of a quoted constant that no quote closes. -/
def LexicalFault.leavesQuoteOpen : LexicalFault → Bool
  | .unterminatedString | .unterminatedCharacter | .endOfLineInCharacter => true
  | _ => false

/-- A constant broken off by its line in front of `after` is so in front of `after'` too. -/
def Lexeme.BreaksOffAlike (l : Lexeme) (after after' : List Char) : Prop :=
  ∀ f ∈ l.faults, f.leavesQuoteOpen = true → AtLineEnd after → AtLineEnd after'

section Scanners

variable {s after after' : List Char}

theorem takeWhile_stopsAlike (h : StopsAlike after after') {p : Char → Bool}
    (hp : ∀ c, isWhitespace c = true → p c = false)
    (hs : (s ++ after).takeWhile p = s) : (s ++ after').takeWhile p = s := by
  have hall : ∀ c ∈ s, p c = true := fun c hc => List.mem_takeWhile_imp (hs ▸ hc)
  rw [List.takeWhile_append_of_pos hall] at hs
  have hnone : after.takeWhile p = [] := List.append_right_eq_self.mp hs
  refine takeWhile_append_of_stop hall (h.stop hp fun c hc => ?_)
  obtain ⟨r, rfl⟩ := List.head?_eq_some_iff.mp hc
  simpa using hnone

theorem numberConstant_stopsAlike (h : StopsAlike after after')
    (hs : (numberConstant (s ++ after)).slice = s) :
    numberConstant (s ++ after') = numberConstant (s ++ after) := by
  rw [slice_numberConstant] at hs
  have hs' := takeWhile_stopsAlike h (fun _ => not_isNumberChar_of_isWhitespace) hs
  exact numberConstant_congr (hs'.trans hs.symm)

theorem wordLexeme_stopsAlike (h : StopsAlike after after')
    (hs : (wordLexeme (s ++ after)).slice = s) :
    wordLexeme (s ++ after') = wordLexeme (s ++ after) := by
  rw [wordLexeme_slice] at hs
  have hs' := takeWhile_stopsAlike h (fun _ => not_isWordChar_of_isWhitespace) hs
  rw [wordLexeme, hs', wordLexeme, hs]

/-- What reads a newline like the end of the text reads so whatever ends a line. -/
theorem eq_of_atLineEnd {α : Type} {f : List Char → α} (hf : ∀ b, f (s ++ '\n' :: b) = f s)
    (h : AtLineEnd after) : f (s ++ after) = f s := by
  rcases h with rfl | hn
  · rw [List.append_nil]
  · obtain ⟨b, rfl⟩ := List.head?_eq_some_iff.mp hn
    exact hf b

/-- A closed string ends where it ends, and one that is not closed reads to the end of its line. -/
theorem stringConstant_stopsAlike (hs : (stringConstant (s ++ after)).slice = '"' :: s)
    (hbreak : (stringConstant (s ++ after)).BreaksOffAlike after after') :
    stringConstant (s ++ after') = stringConstant (s ++ after) := by
  obtain ⟨rest, hrest, hstring, _⟩ := stringConstant_keptOn (s ++ after)
  rw [hs, List.cons_append, List.cons.injEq, List.append_cancel_left_eq] at hrest
  obtain rfl := hrest.2
  have hline : (stringConstant (s ++ after)).faults = [.unterminatedString] → AtLineEnd after →
      stringConstant (s ++ after') = stringConstant (s ++ after) := by
    have hnewline : ∀ b, stringConstant (s ++ '\n' :: b) = stringConstant s := fun b => by
      simp only [stringConstant, stringContents_append_newline]
    intro hfault hend
    have hend' := hbreak .unterminatedString (by simp [hfault]) rfl hend
    rw [eq_of_atLineEnd hnewline hend, eq_of_atLineEnd hnewline hend']
  cases hstring with
  | @closed t v _ contents slice =>
    obtain rfl : s = t ++ ['"'] := by simpa [hs] using slice
    simp only [stringConstant, List.append_assoc, List.singleton_append,
      stringContents_of_contents contents]
  | line _ lineEnd _ _ fault | backslash _ lineEnd _ _ fault => exact hline fault lineEnd

theorem characterConstant_of_unclosed {v rest : List Char} (h : CharacterSpelling s v)
    (hr : rest.head? ≠ some '\'') : characterConstant (s ++ rest) =
      ⟨.character, '\'' :: s, String.ofList v, [.unterminatedCharacter]⟩ := by
  have hclose : ∀ t, rest ≠ '\'' :: t := by
    rintro t rfl
    exact hr rfl
  cases h with
  | @plain c hb hn =>
    rw [List.singleton_append, characterConstant, closeCharacter]
    · exact hclose
    · exact hn
    · exact fun _ _ hc => absurd hc hb
  | @escape c hn =>
    simp only [List.cons_append, List.nil_append, characterConstant, if_neg hn]
    rw [closeCharacter]
    exact hclose

theorem startsSeparatedNumber_stopsAlike (h : StopsAlike after after')
    (hs : (numberConstant ('\'' :: (s ++ after))).slice = '\'' :: s)
    (hn : startsSeparatedNumber (s ++ after) = true) :
    startsSeparatedNumber (s ++ after') = true := by
  match s with
  | [] =>
    cases after with
    | nil => simp [startsSeparatedNumber] at hn
    | cons d r =>
      have hd : isNumberChar d = true := by
        simp only [List.nil_append, startsSeparatedNumber, Bool.and_eq_true] at hn
        exact isNumberChar_of_isDigit hn.1
      have hquote : isNumberChar '\'' = true := by decide
      simp [slice_numberConstant, hd, hquote] at hs
  | [d] =>
    simp only [List.cons_append, List.nil_append, startsSeparatedNumber, Bool.and_eq_true,
      bne_iff_ne] at hn ⊢
    exact ⟨hn.1, h.head_ne (by decide) hn.2⟩
  | d :: e :: s => exact hn

theorem characterConstant_stopsAlike (h : StopsAlike after after')
    (hs : (characterConstant (s ++ after)).slice = '\'' :: s)
    (hn : startsSeparatedNumber (s ++ after) = false)
    (hbreak : (characterConstant (s ++ after)).BreaksOffAlike after after') :
    startsSeparatedNumber (s ++ after') = false ∧
      characterConstant (s ++ after') = characterConstant (s ++ after) := by
  obtain ⟨rest, hrest, hpromise⟩ := characterConstant_keptOn (s ++ after)
  rw [hs, List.cons_append, List.cons.injEq, List.append_cancel_left_eq] at hrest
  obtain rfl := hrest.2
  rw [Promise, kind_characterConstant] at hpromise
  have hline : ∀ f ∈ (characterConstant (s ++ after)).faults, f.leavesQuoteOpen = true →
      AtLineEnd after → startsSeparatedNumber (s ++ after') = false ∧
        characterConstant (s ++ after') = characterConstant (s ++ after) := by
    intro f hf hopen hend
    have hend' := hbreak f hf hopen hend
    rw [eq_of_atLineEnd (startsSeparatedNumber_append_newline s) hend] at hn
    rw [eq_of_atLineEnd (startsSeparatedNumber_append_newline s) hend',
      eq_of_atLineEnd (characterConstant_append_newline s) hend',
      eq_of_atLineEnd (characterConstant_append_newline s) hend]
    exact ⟨hn, rfl⟩
  cases hpromise.1 with
  | empty lineEnd _ _ fault | backslash lineEnd _ _ fault =>
    exact hline _ (by rw [fault]; exact List.mem_singleton_self _) rfl lineEnd
  | @closed t v _ spelling slice =>
    obtain rfl : s = t ++ ['\''] := by simpa [hs] using slice
    simp only [List.append_assoc, List.singleton_append, startsSeparatedNumber_of_spelling spelling,
      characterConstant_of_spelling spelling, and_self]
  | @unclosed t v _ spelling slice next =>
    obtain rfl : s = t := by simpa [hs] using slice
    have next' := h.head_ne (by decide) next
    rw [characterConstant_of_unclosed spelling next, characterConstant_of_unclosed spelling next']
    refine ⟨?_, rfl⟩
    cases spelling with
    | @plain c _ _ =>
      have hd : isDigit c = false := by simpa [startsSeparatedNumber, next] using hn
      simp [startsSeparatedNumber, hd]
    | escape => rfl

theorem plainLexeme_stopsAlike (h : StopsAlike after after') {c : Char}
    (hs : (plainLexeme c (s ++ after)).slice = c :: s) :
    plainLexeme c (s ++ after') = plainLexeme c (s ++ after) := by
  unfold plainLexeme at hs ⊢
  split
  · rfl
  next ho =>
    split
    · rfl
    next hp =>
      rw [if_neg ho, if_neg hp] at hs
      split
      next hd =>
        rw [if_pos hd] at hs
        exact numberConstant_stopsAlike (s := c :: s) h hs
      next hd =>
        split
        · rfl
        next hc =>
          rw [if_neg hd, if_neg hc] at hs
          exact wordLexeme_stopsAlike (s := c :: s) h hs

/-- Past its slice a lexeme looks at the next character at most, and whitespace ends it. Only an
open quote tells a newline from other whitespace. -/
theorem nextLexeme_stopsAlike (h : StopsAlike after after') (hne : s ≠ [])
    (hs : (nextLexeme (s ++ after)).slice = s) (hk : (nextLexeme (s ++ after)).kind ≠ .comment)
    (hbreak : (nextLexeme (s ++ after)).BreaksOffAlike after after') :
    nextLexeme (s ++ after') = nextLexeme (s ++ after) := by
  obtain ⟨c, s, rfl⟩ := List.exists_cons_of_ne_nil hne
  rw [List.cons_append] at hs hk hbreak
  rw [List.cons_append, List.cons_append]
  by_cases hquote : c = '"'
  · subst hquote
    exact stringConstant_stopsAlike hs hbreak
  by_cases hapostrophe : c = '\''
  · subst hapostrophe
    rw [nextLexeme] at hs hbreak
    rw [nextLexeme, nextLexeme]
    split at hs
    next hn =>
      rw [if_pos hn, if_pos (startsSeparatedNumber_stopsAlike h hs hn)]
      exact numberConstant_stopsAlike (s := '\'' :: s) h hs
    next hn =>
      rw [if_neg hn] at hbreak
      obtain ⟨hn', hcharacter⟩ :=
        characterConstant_stopsAlike h hs (Bool.eq_false_iff.mpr hn) hbreak
      rw [if_neg hn, if_neg (Bool.eq_false_iff.mp hn'), hcharacter]
  have hopen : c = '/' → (s ++ after).head? ≠ some '/' ∧ (s ++ after).head? ≠ some '*' := by
    rintro rfl
    constructor
    · intro hh
      obtain ⟨r, hr⟩ := List.head?_eq_some_iff.mp hh
      rw [hr] at hk
      exact hk rfl
    · intro hh
      obtain ⟨r, hr⟩ := List.head?_eq_some_iff.mp hh
      rw [hr] at hk
      exact hk (kind_blockComment r)
  have hopen' : c = '/' → (s ++ after').head? ≠ some '/' ∧ (s ++ after').head? ≠ some '*' := by
    intro hc
    cases s with
    | nil => exact ⟨h.head_ne (by decide) (hopen hc).1, h.head_ne (by decide) (hopen hc).2⟩
    | cons d s => exact hopen hc
  rw [nextLexeme_eq_plainLexeme hquote hapostrophe hopen] at hs
  rw [nextLexeme_eq_plainLexeme hquote hapostrophe hopen,
    nextLexeme_eq_plainLexeme hquote hapostrophe hopen', plainLexeme_stopsAlike h hs]

/-- The slash of a comment ends a lexeme like a space. -/
theorem nextLexeme_endsAlike (h : EndsAlike after after') (hne : s ≠ [])
    (hs : (nextLexeme (s ++ after)).slice = s) (hk : (nextLexeme (s ++ after)).kind ≠ .comment) :
    nextLexeme (s ++ after') = nextLexeme (s ++ after) :=
  nextLexeme_stopsAlike h.stopsAlike hne hs hk fun _ _ _ => h.atLineEnd

end Scanners

end SlsLang
