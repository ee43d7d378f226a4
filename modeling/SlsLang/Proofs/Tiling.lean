import SlsLang.Proofs.ReadThrough

namespace SlsLang

namespace Lexeme

/-- A block comment that nothing closes. -/
def IsOpenComment (l : Lexeme) : Prop :=
  l.kind = .comment ∧ ∃ body, l.slice = '/' :: '*' :: body ∧ ¬ HasClose body

theorem IsLineComment.not_isOpenComment {l : Lexeme} {after : List Char}
    (h : l.IsLineComment after) : ¬ l.IsOpenComment := by
  rintro ⟨_, body, hs, _⟩
  obtain ⟨rest, hr⟩ := h.opening
  rw [hs] at hr
  simp at hr

theorem IsBlockComment.unterminated_iff {l : Lexeme} {after : List Char} (hk : l.kind = .comment)
    (h : l.IsBlockComment after) : .unterminatedComment ∈ l.faults ↔ l.IsOpenComment := by
  cases h with
  | @closed body _ hs _ _ hf =>
    rw [hf]
    refine iff_of_false (by simp) ?_
    rintro ⟨_, open_, ho, hn⟩
    obtain rfl : body ++ ['*', '/'] = open_ := by simpa [hs] using ho
    exact hn ⟨body, [], by simp⟩
  | @unclosed body hs hn _ hf =>
    rw [hf]
    exact iff_of_true (by simp) ⟨hk, body, hs, hn⟩

theorem IsNumber.not_unterminated {l : Lexeme} {after : List Char} (h : l.IsNumber after) :
    .unterminatedComment ∉ l.faults := by
  intro hm
  rcases h.faults _ hm with hf | hf | ⟨c, hf⟩ <;> simp at hf

theorem IsString.not_unterminated {l : Lexeme} {after : List Char} (h : l.IsString after) :
    .unterminatedComment ∉ l.faults := by
  cases h <;> simp [*]

theorem IsCharacter.not_unterminated {l : Lexeme} {after : List Char} (h : l.IsCharacter after) :
    .unterminatedComment ∉ l.faults := by
  cases h <;> simp [*]

/-- A comment is found unterminated exactly when it is an open block comment. -/
theorem Promise.unterminated_iff {l : Lexeme} {after : List Char} (h : l.Promise after) :
    .unterminatedComment ∈ l.faults ↔ l.IsOpenComment := by
  unfold Promise at h
  by_cases hc : l.kind = .comment
  · rw [hc] at h
    rcases h with hl | hb
    · rw [hl.faultless]
      exact iff_of_false (by simp) hl.not_isOpenComment
    · exact hb.unterminated_iff hc
  · refine iff_of_false ?_ fun ho => hc ho.1
    cases hk : l.kind <;> rw [hk] at h
    case comment => exact (hc hk).elim
    case operator | punctuation | invalid => simp [h.faultless]
    case keyword => simp [h.2.2]
    case identifier =>
      rw [h.2.2]
      split <;> simp
    case double | float | int32 | int64 => exact h.not_unterminated
    case string => exact h.1.not_unterminated
    case character => exact h.1.not_unterminated
    case endOfFile => simp [h.2.2.1]
    case boolean => exact h.elim

end Lexeme

/-- A reading that is not the last takes up one character at least. -/
theorem length_readings_le {file : String} {before cs : List Char} {rs : List Reading}
    (h : Reads file before cs rs) : rs.length ≤ cs.length + 1 := by
  induction h with
  | last => simp
  | step hr hl _ ih =>
    have := List.length_pos_iff.mpr (hr.slice_ne_nil hl)
    simp only [List.length_cons, List.length_append, Reading.chars] at ih ⊢
    omega

/-- The readings of a text lie side by side from its start to its end, and each keeps what its kind
promises. -/
theorem readings_tile (file text : String) :
    let rs := (Lexer.start file text).readings
    tokenize file text = rs.map Reading.token ∧
    rs.flatMap (fun r => r.gap ++ r.lexeme.slice) = sourceChars text ∧
    (∃ init last, rs = init ++ [last] ∧ last.token.kind = .endOfFile ∧ last.lexeme.slice = [] ∧
      ∀ r ∈ init, r.token.kind ≠ .endOfFile ∧ r.lexeme.slice ≠ []) ∧
    (tokenize file text).length ≤ (sourceChars text).length + 1 ∧
    ∀ xs r ys, rs = xs ++ r :: ys →
      (∀ c ∈ r.gap, isWhitespace c = true) ∧
      r.lexeme.Promise (ys.flatMap fun r => r.gap ++ r.lexeme.slice) ∧
      ((∃ d ∈ r.diagnostics, d.fault = .lexical .unterminatedComment) ↔
        r.lexeme.IsOpenComment) := by
  intro rs
  have hreads : Reads file [] (sourceChars text) rs := reads_start file text
  have hlength : rs.length ≤ (sourceChars text).length + 1 := length_readings_le hreads
  refine ⟨rfl, flatMap_chars_of_reads hreads, ?_, by simpa [tokenize] using hlength, ?_⟩
  · obtain ⟨init, last, hrs, hl, hinit⟩ := exists_init_of_reads hreads
    obtain ⟨hlast, -⟩ := stands_of_reads hreads hrs
    refine ⟨init, last, hrs, (Reading.isLast_iff last).mp hl, (hlast.nil_of_isLast hl).1, ?_⟩
    intro r hr
    obtain ⟨xs, ys, rfl⟩ := List.append_of_mem hr
    obtain ⟨hstands, -⟩ := stands_of_reads hreads
      (show rs = xs ++ r :: (ys ++ [last]) by rw [hrs]; simp)
    have hf : r.isLast = false := hinit r hr
    exact ⟨fun hk => by simp [(Reading.isLast_iff r).mpr hk] at hf, hstands.slice_ne_nil hf⟩
  · intro xs r ys hrs
    obtain ⟨hstands, _⟩ := stands_of_reads hreads hrs
    refine ⟨hstands.gap, hstands.promise, ?_⟩
    rw [← hstands.promise.unterminated_iff]
    simp [Reading.diagnostics]

end SlsLang
