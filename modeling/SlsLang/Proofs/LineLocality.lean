import SlsLang.Proofs.LineEnd
import SlsLang.Proofs.ReadThrough
import SlsLang.Proofs.Relocation
import SlsLang.Proofs.SignificantTokens

namespace SlsLang

/-- The place so many lines further down. -/
def Place.down (lines : Nat) (p : Place) : Place := { p with line := p.line + lines }

theorem lastLine_append_newline (xs ys : List Char) : lastLine (xs ++ '\n' :: ys) = lastLine ys := by
  induction ys using List.reverseRecOn with
  | nil => exact lastLine_concat_newline xs
  | append_singleton ys c ih =>
    rw [← List.cons_append, ← List.append_assoc]
    by_cases hc : c = '\n'
    · subst hc
      rw [lastLine_concat_newline, lastLine_concat_newline]
    · rw [lastLine_concat _ hc, lastLine_concat _ hc, ih]

/-- Whole lines in front of a text move every place down and leave it as it is otherwise. -/
theorem Place.between_append_line (file : String) (xs before after : List Char) :
    Place.between file (xs ++ '\n' :: before) after =
      (Place.between file before after).down (1 + xs.count '\n') := by
  have hline : lineAcross (xs ++ '\n' :: before) after = lineAcross before after := by
    simp only [lineAcross, lastLine_append_newline]
  have hcount : 1 + (xs ++ '\n' :: before).count '\n' =
      1 + before.count '\n' + (1 + xs.count '\n') := by
    simp only [List.count_append, List.count_cons_self]
    omega
  simp only [between, hline, hcount, lastLine_append_newline, down]

/-- A newline behind a text ends its last line as the end of the text does, except that it would take
a carriage return at the end into the line break. -/
theorem Place.between_append_newline (file : String) {before after : List Char} (b : List Char)
    (h : (before ++ after).getLast? ≠ some '\r') :
    Place.between file before (after ++ '\n' :: b) = .between file before after := by
  have hline : lineAcross before (after ++ '\n' :: b) = lineAcross before after := by
    have htake := takeWhile_append_cons after b (p := (· != '\n')) (x := '\n') rfl
    by_cases hn : '\n' ∈ after
    · simp only [lineAcross, htake, hn, List.mem_append, true_or, if_true]
    · have hself : after.takeWhile (· != '\n') = after := by
        rw [List.takeWhile_eq_self_iff]
        exact fun c hc => bne_iff_ne.mpr fun he => hn (he ▸ hc)
      obtain ⟨lines, hlines⟩ := lastLine_suffix before
      have hlast : (lastLine before ++ after).getLast? ≠ some '\r' := by
        intro hr
        rw [← hlines, List.append_assoc, List.getLast?_append, hr] at h
        exact h rfl
      have hbreak : '\n' ∈ after ++ '\n' :: b := by simp
      simp only [lineAcross, htake, hself, if_neg hn, if_pos hbreak, dropReturn, if_neg hlast]
  rw [between, hline, between]

namespace Reading

def relocate (g : Place → Place) (r : Reading) : Reading := { r with place := g r.place }

/-- A reading with more whitespace before it. -/
def behind (gap : List Char) (r : Reading) : Reading := { r with gap := gap ++ r.gap }

theorem chars_behind (gap : List Char) (r : Reading) : (r.behind gap).chars = gap ++ r.chars :=
  List.append_assoc ..

theorem Stands.relocate_down {file : String} {before after : List Char} {r : Reading}
    (h : r.Stands file before after) (xs : List Char) :
    (r.relocate (.down (1 + xs.count '\n'))).Stands file (xs ++ '\n' :: before) after := by
  refine ⟨h.gap, h.start, h.lexeme, h.promise, ?_⟩
  rw [relocate, h.place, ← Place.between_append_line, List.append_assoc, List.cons_append]

theorem Stands.behind {file : String} {before after gap : List Char} {r : Reading}
    (hw : ∀ c ∈ gap, isWhitespace c = true) (h : r.Stands file (before ++ gap) after) :
    (r.behind gap).Stands file before after := by
  refine ⟨List.forall_mem_append.mpr ⟨hw, h.gap⟩, h.start, h.lexeme, h.promise, ?_⟩
  rw [Reading.behind, h.place, List.append_assoc]

theorem Stands.faultless_of_isLast {file : String} {before after : List Char} {r : Reading}
    (h : r.Stands file before after) (hl : r.isLast = true) : r.lexeme.faults = [] := by
  have hp := h.promise
  rw [Lexeme.Promise, (isLast_iff r).mp hl] at hp
  exact hp.2.2.1

/-- A reading that is not the last stands as it did when another line follows the text. -/
theorem Stands.append_newline {file : String} {before after : List Char} {r : Reading}
    (h : r.Stands file before after) (hl : r.isLast = false)
    (hopen : .unterminatedComment ∉ r.lexeme.faults)
    (hreturn : (before ++ (r.chars ++ after)).getLast? ≠ some '\r') (b : List Char) :
    r.Stands file before (after ++ '\n' :: b) := by
  have hne : r.lexeme.slice ++ after ≠ [] := by simp [h.slice_ne_nil hl]
  have hread : r.lexeme = nextLexeme (r.lexeme.slice ++ (after ++ '\n' :: b)) := by
    rw [h.lexeme] at hopen
    rw [← List.append_assoc, nextLexeme_append_newline b hne hopen]
    exact h.lexeme
  refine h.of_read hl hread ?_
  rw [h.place, ← List.append_assoc r.lexeme.slice, Place.between_append_newline]
  simpa [chars] using hreturn

end Reading

/-- The next reading is the only one that stands at the head of what is left. -/
theorem Lexer.next_of_stands {file : String} {before after : List Char} {r : Reading}
    (h : r.Stands file before after) : (between file before (r.chars ++ after)).next =
      (r, between file (before ++ r.chars) after) := by
  obtain ⟨gap, lexeme, place⟩ := r
  obtain rfl : place = .between file (before ++ gap) (lexeme.slice ++ after) := h.place
  have htake : (gap ++ (lexeme.slice ++ after)).takeWhile isWhitespace = gap :=
    takeWhile_append_of_stop h.gap h.start
  have hskip := Cursor.skip_between before gap (lexeme.slice ++ after)
  have hrest := Cursor.skip_between (before ++ gap) lexeme.slice after
  have hread : nextLexeme (lexeme.slice ++ after) = lexeme := h.lexeme.symm
  simp only [Reading.chars, List.append_assoc, next, between, Cursor.rest_between, htake, hskip,
    hread, hrest]
  rfl

theorem readings_of_reads {file : String} {before cs : List Char} {rs : List Reading}
    (h : Reads file before cs rs) : (Lexer.between file before cs).readings = rs := by
  induction h with
  | @last before r hr hl =>
    have hnext := Lexer.next_of_stands hr
    rw [List.append_nil] at hnext
    rw [Lexer.readings_eq, hnext, if_pos hl]
  | @step before after r rs hr hl _ ih =>
    rw [Lexer.readings_eq, Lexer.next_of_stands hr, if_neg (by simp [hl]), ih]

/-- Readings with more whitespace before the first of them. -/
def readingsBehind (gap : List Char) : List Reading → List Reading
  | [] => []
  | r :: rs => r.behind gap :: rs

namespace Reads

variable {file : String} {before cs : List Char} {rs : List Reading}

theorem relocate_down (h : Reads file before cs rs) (xs : List Char) :
    Reads file (xs ++ '\n' :: before) cs
      (rs.map (Reading.relocate (.down (1 + xs.count '\n')))) := by
  induction h with
  | last hr hl => exact .last (hr.relocate_down xs) hl
  | @step before after r rs hr hl _ ih =>
    refine .step (hr.relocate_down xs) hl ?_
    rw [List.append_assoc, List.cons_append]
    exact ih

theorem behind {gap : List Char} (h : Reads file (before ++ gap) cs rs)
    (hw : ∀ c ∈ gap, isWhitespace c = true) :
    Reads file before (gap ++ cs) (readingsBehind gap rs) := by
  cases h with
  | @last _ r hr hl =>
    rw [← Reading.chars_behind]
    exact .last (hr.behind hw) hl
  | @step _ after r rs hr hl hrest =>
    rw [List.append_assoc, ← Reading.chars_behind] at hrest
    rw [← List.append_assoc, ← Reading.chars_behind]
    exact .step (hr.behind hw) hl hrest

/-- A text and another line read as the text alone and then as the line. What the text leaves as
whitespace goes before the first reading of the line. -/
theorem append_line {b : List Char} {more : List Reading} (h : Reads file before cs rs)
    (hopen : ∀ r ∈ rs, .unterminatedComment ∉ r.lexeme.faults)
    (hreturn : (before ++ cs).getLast? ≠ some '\r')
    (hmore : Reads file (before ++ cs ++ ['\n']) b more) :
    ∃ init last gap, rs = init ++ [last] ∧ last.isLast = true ∧ last.lexeme.faults = [] ∧
      Reads file before (cs ++ '\n' :: b) (init ++ readingsBehind gap more) := by
  induction h with
  | @last before r hr hl =>
    -- All that is left is whitespace, and the newline is more of it.
    have hchars : r.chars = r.gap := by
      rw [Reading.chars, (hr.nil_of_isLast hl).1, List.append_nil]
    have hwhite : ∀ c ∈ r.chars ++ ['\n'], isWhitespace c = true := by
      rw [hchars]
      exact List.forall_mem_append.mpr ⟨hr.gap, List.forall_mem_singleton.mpr (by decide)⟩
    rw [List.append_assoc] at hmore
    rw [List.append_cons]
    exact ⟨[], r, r.chars ++ ['\n'], rfl, hl, hr.faultless_of_isLast hl, hmore.behind hwhite⟩
  | @step before after r rs hr hl _ ih =>
    obtain ⟨hfirst, hothers⟩ := List.forall_mem_cons.mp hopen
    rw [← List.append_assoc] at hreturn hmore
    obtain ⟨init, last, gap, rfl, hlast, hfaults, hreads⟩ := ih hothers hreturn hmore
    rw [List.append_assoc] at hreturn
    rw [List.append_assoc]
    exact ⟨r :: init, last, gap, rfl, hlast, hfaults,
      .step (hr.append_newline hl hfirst hreturn b) hl hreads⟩

end Reads

theorem map_token_readingsBehind (gap : List Char) (rs : List Reading) :
    (readingsBehind gap rs).map Reading.token = rs.map Reading.token := by
  cases rs <;> rfl

theorem map_diagnostics_readingsBehind (gap : List Char) (rs : List Reading) :
    (readingsBehind gap rs).map Reading.diagnostics = rs.map Reading.diagnostics := by
  cases rs <;> rfl

theorem flatMap_diagnostics_readingsBehind (gap : List Char) (rs : List Reading) :
    (readingsBehind gap rs).flatMap Reading.diagnostics = rs.flatMap Reading.diagnostics := by
  cases rs <;> rfl

theorem map_token_relocate (g : Place → Place) (rs : List Reading) :
    (rs.map (Reading.relocate g)).map Reading.token =
      (rs.map Reading.token).map (Token.relocate g) := by
  simp only [List.map_map]
  rfl

theorem Reading.diagnostics_relocate (g : Place → Place) (r : Reading) :
    (r.relocate g).diagnostics = r.diagnostics.map (Diagnostic.relocate g) := by
  simp only [Reading.diagnostics, List.map_map]
  rfl

theorem flatMap_diagnostics_relocate (g : Place → Place) (rs : List Reading) :
    (rs.map (Reading.relocate g)).flatMap Reading.diagnostics =
      (rs.flatMap Reading.diagnostics).map (Diagnostic.relocate g) := by
  simp only [List.flatMap_map, List.map_flatMap, Reading.diagnostics_relocate]

theorem toList_eq_sourceChars (text : String) :
    (text.toList.head? ≠ some '\ufeff' ∧ text.toList = sourceChars text) ∨
      text.toList = '\ufeff' :: sourceChars text := by
  unfold sourceChars
  split
  next h =>
    obtain ⟨r, hr⟩ := List.head?_eq_some_iff.mp h
    simp [hr]
  next h => exact .inl ⟨h, rfl⟩

theorem sourceChars_append_line (a : String) {b : String} (h : b.toList.head? ≠ some '\ufeff') :
    sourceChars (a ++ "\n" ++ b) = sourceChars a ++ '\n' :: sourceChars b := by
  have htext : (a ++ "\n" ++ b).toList = a.toList ++ '\n' :: b.toList := by simp
  have hb : sourceChars b = b.toList := if_neg h
  rw [hb, sourceChars, htext, sourceChars]
  cases a.toList with
  | nil => rfl
  | cons c cs =>
    by_cases hc : c = '\ufeff' <;> simp [hc]

theorem getLast?_sourceChars {a : String} (h : a.toList.getLast? ≠ some '\r') :
    (sourceChars a).getLast? ≠ some '\r' := by
  rcases toList_eq_sourceChars a with ⟨_, ha⟩ | ha
  · rwa [ha] at h
  · intro hr
    rw [ha, List.getLast?_cons, hr] at h
    exact h rfl

theorem count_sourceChars (a : String) : (sourceChars a).count '\n' = a.toList.count '\n' := by
  rcases toList_eq_sourceChars a with ⟨_, ha⟩ | ha
  · rw [ha]
  · rw [ha, List.count_cons_of_ne (by decide)]

/-- What is read of one line does not hang on the lines before it, nor on those behind. Only an
unterminated comment reads over the end of its line. -/
theorem tokenize_append_line (file : String) {a b : String}
    (hopen : ∀ d ∈ spellingFaults file a, d.fault ≠ .lexical .unterminatedComment)
    (hreturn : a.toList.getLast? ≠ some '\r') (hmark : b.toList.head? ≠ some '\ufeff') :
    let down := Place.down (1 + a.toList.count '\n')
    (∃ init last, tokenize file a = init ++ [last] ∧ last.isEndOfFile = true ∧
      tokenize file (a ++ "\n" ++ b) = init ++ (tokenize file b).map (Token.relocate down)) ∧
    spellingFaults file (a ++ "\n" ++ b) =
      spellingFaults file a ++ (spellingFaults file b).map (Diagnostic.relocate down) := by
  intro down
  have hfaults : ∀ r ∈ (Lexer.start file a).readings, .unterminatedComment ∉ r.lexeme.faults := by
    intro r hr hm
    exact hopen _ (List.mem_flatMap.mpr ⟨r, hr, List.mem_map_of_mem hm⟩) rfl
  have hb := (reads_start file b).relocate_down (sourceChars a)
  obtain ⟨init, last, gap, ha, hlast, hnone, hreads⟩ :=
    (reads_start file a).append_line hfaults (getLast?_sourceChars hreturn) hb
  rw [← sourceChars_append_line a hmark] at hreads
  have hreadings := readings_of_reads hreads
  rw [← Lexer.start_eq_between] at hreadings
  rw [count_sourceChars] at hreadings
  refine ⟨⟨init.map Reading.token, last.token, ?_, hlast, ?_⟩, ?_⟩
  · rw [tokenize, ha, List.map_append, List.map_singleton]
  · rw [tokenize, hreadings, List.map_append, map_token_readingsBehind, map_token_relocate]
    rfl
  · have hlastFaults : last.diagnostics = [] := by rw [Reading.diagnostics, hnone]; rfl
    simp only [spellingFaults, hreadings, ha, List.flatMap_append, List.flatMap_singleton,
      hlastFaults, List.append_nil, flatMap_diagnostics_readingsBehind,
      flatMap_diagnostics_relocate, down]

/-- A string and a character constant that their lines break off, the string behind a backslash. -/
theorem tokenize_append_line_brokenOff :
    let a := "s = \"open\\\nc = '"
    let b := "'n' = 1'\n\""
    (∀ d ∈ spellingFaults "main.sls" a, d.fault ≠ .lexical .unterminatedComment) ∧
    a.toList.getLast? ≠ some '\r' ∧ b.toList.head? ≠ some '\ufeff' ∧
    (∃ init last, tokenize "main.sls" a = init ++ [last] ∧ last.isEndOfFile = true ∧
      tokenize "main.sls" (a ++ "\n" ++ b) =
        init ++ (tokenize "main.sls" b).map (Token.relocate (.down 2))) ∧
    spellingFaults "main.sls" (a ++ "\n" ++ b) =
      spellingFaults "main.sls" a ++
        (spellingFaults "main.sls" b).map (Diagnostic.relocate (.down 2)) := by
  intro a b
  have hopen : ∀ d ∈ spellingFaults "main.sls" a, d.fault ≠ .lexical .unterminatedComment := by
    decide +kernel
  have hreturn : a.toList.getLast? ≠ some '\r' := by decide
  have hmark : b.toList.head? ≠ some '\ufeff' := by decide
  have hcount : 1 + a.toList.count '\n' = 2 := by decide
  have hlines := tokenize_append_line "main.sls" hopen hreturn hmark
  rw [hcount] at hlines
  exact ⟨hopen, hreturn, hmark, hlines⟩

end SlsLang
