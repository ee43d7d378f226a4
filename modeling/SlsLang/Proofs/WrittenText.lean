import SlsLang.Lexer
import SlsLang.Proofs.ReadBack
import SlsLang.Proofs.SourcePosition

namespace SlsLang

/-- A text of the lexemes in their order, with whitespace wherever one would run into the next. -/
inductive Writes : List Lexeme → List Char → Prop
  | nil {gap : List Char} (white : ∀ c ∈ gap, isWhitespace c = true) : Writes [] gap
  | cons {gap rest : List Char} {l : Lexeme} {ls : List Lexeme}
      (white : ∀ c ∈ gap, isWhitespace c = true) (ends : l.EndsBefore rest)
      (tail : Writes ls rest) : Writes (l :: ls) (gap ++ (l.slice ++ rest))

theorem Writes.white_append {ls : List Lexeme} {gap cs : List Char} (h : Writes ls cs)
    (hw : ∀ c ∈ gap, isWhitespace c = true) : Writes ls (gap ++ cs) := by
  have happ : ∀ {more : List Char}, (∀ c ∈ more, isWhitespace c = true) →
      ∀ c ∈ gap ++ more, isWhitespace c = true := fun hm => List.forall_mem_append.mpr ⟨hw, hm⟩
  cases h with
  | nil hm => exact .nil (happ hm)
  | cons hm he ht =>
    rw [← List.append_assoc]
    exact .cons (happ hm) he ht

/-- What is written is read back, lexeme by lexeme. -/
theorem map_lexeme_readings {ls : List Lexeme} {cs : List Char} (h : Writes ls cs)
    (hls : ∀ l ∈ ls, l.ReadBack) (lexer : Lexer) (hcs : lexer.cursor.rest = cs) :
    lexer.readings.map Reading.lexeme = ls ++ [.endOfFile] := by
  -- The lexer that has read the first lexeme has the text of the others left.
  induction h generalizing lexer with
  | @nil gap hw =>
    have hlex : lexer.next.1.lexeme = .endOfFile := by
      rw [lexer.next_lexeme, hcs, List.dropWhile_eq_nil_iff.mpr hw]
      rfl
    have hlast : lexer.next.1.isLast = true := by
      simp [Reading.isLast, Reading.token, hlex, Lexeme.endOfFile, Token.isEndOfFile]
    rw [lexer.readings_eq, if_pos hlast]
    simp [hlex]
  | @cons gap rest l ls hw he _ ih =>
    have hl := hls l (by simp)
    obtain ⟨c, r, hs, hc, _⟩ := hl.start
    have hdrop : (gap ++ (l.slice ++ rest)).dropWhile isWhitespace = l.slice ++ rest :=
      dropWhile_append_of_stop hw (by simp [hs, hc])
    have hlex : lexer.next.1.lexeme = l := by rw [lexer.next_lexeme, hcs, hdrop, hl.read rest he]
    have hrest : lexer.next.2.cursor.rest = rest := by
      rw [lexer.rest_next, hlex, hcs, hdrop, List.drop_left]
    have hmore : lexer.next.1.isLast = false := by
      have hk := hl.kind_ne
      simp [Reading.isLast, Reading.token, hlex, Token.isEndOfFile, hk]
    have htail := ih (fun l hl => hls l (List.mem_cons_of_mem _ hl)) lexer.next.2 hrest
    rw [lexer.readings_eq, if_neg (by simp [hmore]), List.map_cons, hlex, htail]
    rfl

theorem head?_ne_of_writes {ls : List Lexeme} {cs : List Char} (h : Writes ls cs)
    (hls : ∀ l ∈ ls, l.ReadBack) : cs.head? ≠ some '\ufeff' := by
  have hgap : ∀ {gap : List Char}, (∀ c ∈ gap, isWhitespace c = true) →
      gap.head? ≠ some '\ufeff' := by
    intro gap hw hh
    exact absurd (hw _ (List.mem_of_head? hh)) (by decide)
  cases h with
  | nil hw => exact hgap hw
  | @cons gap rest l ls hw _ _ =>
    obtain ⟨c, r, hs, _, hf⟩ := (hls l (by simp)).start
    cases gap with
    | nil => simpa [hs] using hf
    | cons d gap => simpa using hgap hw

/-- A written text starts with no byte order mark, so all of it is read. -/
theorem map_lexeme_readings_start {ls : List Lexeme} {text : String} (file : String)
    (h : Writes ls text.toList) (hls : ∀ l ∈ ls, l.ReadBack) :
    (Lexer.start file text).readings.map Reading.lexeme = ls ++ [.endOfFile] := by
  refine map_lexeme_readings h hls _ ?_
  have hm := head?_ne_of_writes h hls
  rw [Lexer.start, Cursor.start_eq_between, Cursor.rest_between, sourceChars, if_neg hm]

theorem map_kind_text_tokenize {ls : List Lexeme} {file text : String}
    (h : (Lexer.start file text).readings.map Reading.lexeme = ls ++ [.endOfFile]) :
    (tokenize file text).map (fun t => (t.kind, t.text)) =
      ls.map (fun l => (l.kind, l.text)) ++ [(.endOfFile, "")] := by
  have hmap := congrArg (List.map fun l : Lexeme => (l.kind, l.text)) h
  rw [List.map_map, List.map_append] at hmap
  rw [tokenize, List.map_map]
  exact hmap

theorem flatMap_diagnostics_eq_nil {ls : List Lexeme} {rs : List Reading}
    (h : rs.map Reading.lexeme = ls ++ [.endOfFile]) (hls : ∀ l ∈ ls, l.ReadBack) :
    rs.flatMap Reading.diagnostics = [] := by
  rw [List.flatMap_eq_nil_iff]
  intro r hr
  have hl : r.lexeme ∈ ls ++ [.endOfFile] := h ▸ List.mem_map_of_mem hr
  have hf : r.lexeme.faults = [] := by
    rcases List.mem_append.mp hl with hl | hl
    · exact (hls _ hl).faultless
    · rw [List.mem_singleton.mp hl]
      rfl
  simp [Reading.diagnostics, hf]

end SlsLang
