import SlsLang.Proofs.LexemePromise
import SlsLang.Proofs.SourcePosition

namespace SlsLang

namespace Reading

/-- All that a reading takes up, the whitespace before its lexeme included. -/
def chars (r : Reading) : List Char := r.gap ++ r.lexeme.slice

/-- A reading as it is made once `before` has been read, where `after` is left behind its slice. -/
structure Stands (file : String) (before : List Char) (r : Reading) (after : List Char) : Prop where
  gap : ∀ c ∈ r.gap, isWhitespace c = true
  start : ∀ c ∈ (r.lexeme.slice ++ after).head?, isWhitespace c = false
  lexeme : r.lexeme = nextLexeme (r.lexeme.slice ++ after)
  promise : r.lexeme.Promise after
  place : r.place = .between file (before ++ r.gap) (r.lexeme.slice ++ after)

theorem isLast_iff (r : Reading) : r.isLast = true ↔ r.lexeme.kind = .endOfFile := by
  simp [isLast, token, Token.isEndOfFile]

theorem Stands.nil_of_isLast {file : String} {before after : List Char} {r : Reading}
    (h : r.Stands file before after) (hl : r.isLast = true) : r.lexeme.slice = [] ∧ after = [] := by
  have hp := h.promise
  rw [Lexeme.Promise, (isLast_iff r).mp hl] at hp
  exact ⟨hp.1, hp.2.2.2⟩

theorem Stands.slice_ne_nil {file : String} {before after : List Char} {r : Reading}
    (h : r.Stands file before after) (hl : r.isLast = false) : r.lexeme.slice ≠ [] := by
  cases hc : r.lexeme.slice ++ after with
  | nil =>
    have hlex := h.lexeme
    rw [hc] at hlex
    have he : r.isLast = true := (isLast_iff r).mpr (by rw [hlex]; rfl)
    simp [he] at hl
  | cons c cs =>
    have hw : isWhitespace c = false := h.start c (by simp [hc])
    rw [h.lexeme, hc]
    exact nextLexeme_slice_ne_nil hw

/-- A lexeme that is read behind whitespace stands there. -/
theorem Stands.of_nextLexeme {file : String} {before gap after : List Char} {l : Lexeme}
    (hgap : ∀ c ∈ gap, isWhitespace c = true)
    (hstart : ∀ c ∈ (l.slice ++ after).head?, isWhitespace c = false)
    (hread : nextLexeme (l.slice ++ after) = l) :
    (⟨gap, l, .between file (before ++ gap) (l.slice ++ after)⟩ : Reading).Stands
      file before after := by
  obtain ⟨rest, hrest, hpromise⟩ := nextLexeme_keptOn (l.slice ++ after)
  rw [hread] at hrest hpromise
  obtain rfl := List.append_cancel_left hrest
  exact ⟨hgap, hstart, hread.symm, hpromise, rfl⟩

/-- A lexeme that is read again in front of other text stands there. -/
theorem Stands.of_read {file : String} {before after before' after' : List Char} {r : Reading}
    {place : Place} (h : r.Stands file before after) (hl : r.isLast = false)
    (hread : r.lexeme = nextLexeme (r.lexeme.slice ++ after'))
    (hplace : place = .between file (before' ++ r.gap) (r.lexeme.slice ++ after')) :
    (⟨r.gap, r.lexeme, place⟩ : Reading).Stands file before' after' := by
  have hstart := h.start
  rw [List.head?_append_of_ne_nil _ (h.slice_ne_nil hl)] at hstart
  subst hplace
  refine .of_nextLexeme h.gap ?_ hread.symm
  rwa [List.head?_append_of_ne_nil _ (h.slice_ne_nil hl)]

end Reading

namespace Lexer

/-- The lexer that has read `before` and has `after` left. -/
def between (file : String) (before after : List Char) : Lexer := ⟨file, .between before after⟩

theorem start_eq_between (file text : String) :
    start file text = between file [] (sourceChars text) := by
  rw [start, between, Cursor.start_eq_between]

/-- One step of a lexer: a reading that stands at the head of what is left, and the lexer behind. -/
theorem next_between (file : String) (before cs : List Char) :
    ∃ r after, cs = r.chars ++ after ∧ r.Stands file before after ∧
      (between file before cs).next = (r, between file (before ++ r.chars) after) := by
  obtain ⟨after, ha, hp⟩ := nextLexeme_keptOn (cs.dropWhile isWhitespace)
  have hcs : cs = cs.takeWhile isWhitespace ++ cs.dropWhile isWhitespace :=
    List.takeWhile_append_dropWhile.symm
  have hskip : Cursor.skip (cs.takeWhile isWhitespace).length (.between before cs) =
      .between (before ++ cs.takeWhile isWhitespace) (cs.dropWhile isWhitespace) := by
    have h := Cursor.skip_between before (cs.takeWhile isWhitespace) (cs.dropWhile isWhitespace)
    rwa [← hcs] at h
  refine ⟨⟨cs.takeWhile isWhitespace, nextLexeme (cs.dropWhile isWhitespace),
    .between file (before ++ cs.takeWhile isWhitespace) (cs.dropWhile isWhitespace)⟩, after, ?_,
    ⟨fun c hc => List.mem_takeWhile_imp hc, ?_, ?_, hp, ?_⟩, ?_⟩
  · rw [Reading.chars, List.append_assoc, ← ha, ← hcs]
  · rw [← ha]
    exact head?_dropWhile_eq_false
  · rw [← ha]
  · rw [← ha]
  · have hrest := Cursor.skip_between (before ++ cs.takeWhile isWhitespace)
      (nextLexeme (cs.dropWhile isWhitespace)).slice after
    rw [← ha, List.append_assoc] at hrest
    simp only [next, between, Cursor.rest_between, hskip, hrest]
    rfl

end Lexer

/-- Once `before` has been read, reading `cs` to its end makes the given readings. -/
inductive Reads (file : String) : List Char → List Char → List Reading → Prop
  | last {before : List Char} {r : Reading} (stands : r.Stands file before [])
      (end_ : r.isLast = true) : Reads file before r.chars [r]
  | step {before after : List Char} {r : Reading} {rs : List Reading}
      (stands : r.Stands file before after) (more : r.isLast = false)
      (rest : Reads file (before ++ r.chars) after rs) :
      Reads file before (r.chars ++ after) (r :: rs)

theorem reads_readings (file : String) (before cs : List Char) :
    Reads file before cs (Lexer.between file before cs).readings := by
  obtain ⟨r, after, hcs, hr, hnext⟩ := Lexer.next_between file before cs
  rw [Lexer.readings_eq, hnext]
  cases hl : r.isLast with
  | true =>
    obtain ⟨_, rfl⟩ := hr.nil_of_isLast hl
    rw [hcs, List.append_nil]
    exact .last hr hl
  | false =>
    have hlt : after.length < cs.length := by
      have := List.length_pos_iff.mpr (hr.slice_ne_nil hl)
      simp only [hcs, Reading.chars, List.length_append]
      omega
    rw [hcs]
    exact .step hr hl (reads_readings file (before ++ r.chars) after)
termination_by cs.length

theorem reads_start (file text : String) :
    Reads file [] (sourceChars text) (Lexer.start file text).readings := by
  rw [Lexer.start_eq_between]
  exact reads_readings file [] (sourceChars text)

theorem exists_init_of_reads {file : String} {before cs : List Char} {rs : List Reading}
    (h : Reads file before cs rs) :
    ∃ init last, rs = init ++ [last] ∧ last.isLast = true ∧ ∀ r ∈ init, r.isLast = false := by
  induction h with
  | @last before r _ end_ => exact ⟨[], r, rfl, end_, by simp⟩
  | @step before after r rs _ more _ ih =>
    obtain ⟨init, last, rfl, hlast, hinit⟩ := ih
    exact ⟨r :: init, last, rfl, hlast, List.forall_mem_cons.mpr ⟨more, hinit⟩⟩

/-- The end of the text is the last of its tokens, and no other token is. -/
theorem exists_init_tokenize (file text : String) :
    ∃ init last, tokenize file text = init ++ [last] ∧ last.kind = .endOfFile ∧
      ∀ t ∈ init, t.isEndOfFile = false := by
  obtain ⟨init, last, hrs, hlast, hinit⟩ := exists_init_of_reads (reads_start file text)
  refine ⟨init.map Reading.token, last.token, by simp [tokenize, hrs],
    (Reading.isLast_iff last).mp hlast, ?_⟩
  intro t ht
  obtain ⟨r, hr, rfl⟩ := List.mem_map.mp ht
  exact hinit r hr

theorem not_isEndOfFile_of_append {file text : String} {ts us : List Token}
    (h : tokenize file text = ts ++ us) (hne : us ≠ []) : ∀ t ∈ ts, t.isEndOfFile = false := by
  obtain ⟨init, last, htokens, -, hinit⟩ := exists_init_tokenize file text
  obtain ⟨us, u, rfl⟩ := (List.eq_nil_or_concat us).resolve_left hne
  rw [htokens, List.concat_eq_append, ← List.append_assoc] at h
  obtain ⟨rfl, -⟩ := List.append_inj' h rfl
  exact (List.forall_mem_append.mp hinit).1

theorem flatMap_chars_of_reads {file : String} {before cs : List Char} {rs : List Reading}
    (h : Reads file before cs rs) : rs.flatMap Reading.chars = cs := by
  induction h with
  | last => simp
  | step _ _ _ ih => rw [List.flatMap_cons, ih]

/-- Every reading of a text stands behind what the readings before it took up, and leaves what the
readings after it take up. -/
theorem stands_of_reads {file : String} {before cs : List Char} {rs xs ys : List Reading}
    {r : Reading} (h : Reads file before cs rs) (hrs : rs = xs ++ r :: ys) :
    r.Stands file (before ++ xs.flatMap Reading.chars) (ys.flatMap Reading.chars) ∧
      (r.isLast = true ↔ ys = []) := by
  induction h generalizing xs with
  | last hr hl =>
    obtain ⟨rfl, hr'⟩ : xs = [] ∧ [r] ++ ys = [_] := by
      cases xs with
      | nil => exact ⟨rfl, hrs.symm⟩
      | cons x xs => simp at hrs
    obtain ⟨rfl, rfl⟩ := List.cons.inj hr'
    simpa using ⟨hr, hl⟩
  | @step before after r' rs hr hl hrest ih =>
    cases xs with
    | nil =>
      obtain ⟨rfl, rfl⟩ := List.cons.inj hrs
      have hne : rs ≠ [] := by
        rintro rfl
        cases hrest
      rw [flatMap_chars_of_reads hrest]
      simpa [hl, hne] using hr
    | cons x xs =>
      obtain ⟨rfl, rfl⟩ := List.cons.inj hrs
      simpa [List.append_assoc] using ih rfl

end SlsLang
