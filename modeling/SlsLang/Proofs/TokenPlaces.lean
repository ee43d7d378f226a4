import SlsLang.Compilation
import SlsLang.Proofs.Blame
import SlsLang.Proofs.Lists
import SlsLang.Proofs.ReadThrough
import SlsLang.PullSchedule

namespace SlsLang

/-- The place of the character at an offset, counted out over all the text before it. -/
def Place.atOffset (file : String) (cs : List Char) (p : Nat) : Place :=
  .between file (cs.take p) (cs.drop p)

namespace Reading

structure StandsAt (file : String) (cs : List Char) (r : Reading) (p : Nat) : Prop where
  bound : p ≤ cs.length
  slice : r.lexeme.slice <+: cs.drop p
  place : r.token.place = .atOffset file cs p
  first : r.isLast = false → ∃ c, r.lexeme.slice.head? = some c ∧ cs[p]? = some c ∧
    r.token.place.sourceLine.toList[r.token.place.column - 1]? = some c ∧
    r.token.place.column ≤ r.token.place.sourceLine.toList.length
  last : r.isLast = true → p = cs.length ∧
    r.token.place.column = r.token.place.sourceLine.toList.length + 1

end Reading

theorem dropReturn_append_cons {c : Char} (xs ys : List Char) (h : c ≠ '\r') :
    ∃ zs, dropReturn (xs ++ c :: ys) = xs ++ c :: zs := by
  unfold dropReturn
  split
  next hl =>
    cases ys using List.reverseRecOn with
    | nil =>
      have hc : c = '\r' := by simpa using hl
      exact (h hc).elim
    | append_singleton ys y =>
      refine ⟨ys, ?_⟩
      rw [← List.cons_append, ← List.append_assoc, List.dropLast_concat]
  next => exact ⟨ys, rfl⟩

/-- A character that is no whitespace stands on its own line, right behind the last line before it. -/
theorem lineAcross_cons {c : Char} (before after : List Char) (h : isWhitespace c = false) :
    ∃ zs, lineAcross before (c :: after) = lastLine before ++ c :: zs := by
  have hn : c ≠ '\n' := by
    rintro rfl
    exact absurd h (by decide)
  have hr : c ≠ '\r' := by
    rintro rfl
    exact absurd h (by decide)
  have ht : (c :: after).takeWhile (· != '\n') = c :: after.takeWhile (· != '\n') := by simp [hn]
  simp only [lineAcross, ht]
  split
  · exact dropReturn_append_cons _ _ hr
  · exact ⟨_, rfl⟩

theorem Reading.Stands.standsAt {file : String} {before after : List Char} {r : Reading}
    (h : r.Stands file before after) :
    r.StandsAt file (before ++ (r.chars ++ after)) (before ++ r.gap).length := by
  have hcs : before ++ (r.chars ++ after) = (before ++ r.gap) ++ (r.lexeme.slice ++ after) := by
    simp [Reading.chars, List.append_assoc]
  have htake : (before ++ (r.chars ++ after)).take (before ++ r.gap).length = before ++ r.gap := by
    rw [hcs, List.take_left]
  have hdrop : (before ++ (r.chars ++ after)).drop (before ++ r.gap).length =
      r.lexeme.slice ++ after := by
    rw [hcs, List.drop_left]
  have hplace : r.token.place = .between file (before ++ r.gap) (r.lexeme.slice ++ after) := h.place
  refine ⟨by simp [hcs], ?_, ?_, ?_, ?_⟩
  · rw [hdrop]
    exact List.prefix_append _ _
  · rw [Place.atOffset, htake, hdrop, hplace]
  · intro hl
    obtain ⟨c, slice, hs⟩ := List.exists_cons_of_ne_nil (h.slice_ne_nil hl)
    have hw : isWhitespace c = false := h.start c (by simp [hs])
    obtain ⟨zs, hz⟩ := lineAcross_cons (before ++ r.gap) (slice ++ after) hw
    refine ⟨c, by simp [hs], ?_, ?_, ?_⟩
    · rw [← List.head?_drop, hdrop, hs]
      rfl
    · simp [hplace, Place.between, hs, hz]
    · simp [hplace, Place.between, hs, hz]
      omega
  · intro hl
    obtain ⟨hs, rfl⟩ := h.nil_of_isLast hl
    have hz : lineAcross (before ++ r.gap) [] = lastLine (before ++ r.gap) := by simp [lineAcross]
    refine ⟨by simp [Reading.chars, hs], ?_⟩
    simp [hplace, Place.between, hs, hz, Nat.add_comm]

/-- The offset of a reading lies before all that is read after it. -/
theorem exists_offsets_of_reads {file : String} {before cs : List Char} {rs : List Reading}
    (h : Reads file before cs rs) :
    ∃ offsets : List Nat, offsets.Pairwise (· < ·) ∧ (∀ p ∈ offsets, before.length ≤ p) ∧
      List.Forall₂ (Reading.StandsAt file (before ++ cs)) rs offsets := by
  induction h with
  | @last before r hr _ =>
    refine ⟨[(before ++ r.gap).length], by simp, by simp, .cons ?_ .nil⟩
    simpa using hr.standsAt
  | @step before after r rs hr hl _ ih =>
    obtain ⟨offsets, hlt, hle, hstands⟩ := ih
    have hpos := List.length_pos_iff.mpr (hr.slice_ne_nil hl)
    refine ⟨(before ++ r.gap).length :: offsets, List.pairwise_cons.mpr ⟨?_, hlt⟩, ?_,
      .cons hr.standsAt ?_⟩
    · intro p hp
      have := hle p hp
      simp only [List.length_append, Reading.chars] at this ⊢
      omega
    · intro p hp
      rcases List.mem_cons.mp hp with rfl | hp
      · simp
      · have := hle p hp
        simp only [List.length_append] at this
        omega
    · rwa [List.append_assoc] at hstands

theorem exists_standsAt_of_mem {file text : String} {r : Reading}
    (h : r ∈ (Lexer.start file text).readings) : ∃ p, r.StandsAt file (sourceChars text) p := by
  obtain ⟨offsets, -, -, hstands⟩ := exists_offsets_of_reads (reads_start file text)
  exact exists_forall₂_iff.mp ⟨offsets, hstands⟩ r h

/-- The column of a token counts a stretch of the text that lies on one line. -/
theorem Reading.StandsAt.exists_line {file : String} {cs : List Char} {r : Reading} {p : Nat}
    (h : r.StandsAt file cs p) :
    ∃ line, line <:+: cs ∧ '\n' ∉ line ∧ r.token.place.column = line.length + 1 := by
  have hinfix : lastLine (cs.take p) <:+: cs :=
    (lastLine_suffix _).isInfix.trans (List.take_prefix p cs).isInfix
  refine ⟨lastLine (cs.take p), hinfix, newline_not_mem_lastLine _, ?_⟩
  rw [h.place]
  exact Nat.add_comm _ _

theorem place_of_mem_diagnostics {r : Reading} {d : Diagnostic} (h : d ∈ r.diagnostics) :
    (∃ f, d.fault = .lexical f) ∧ d.place = r.token.place := by
  obtain ⟨f, _, rfl⟩ := List.mem_map.mp h
  exact ⟨⟨f, rfl⟩, rfl⟩

theorem place_of_mem_recognize {rs : List Reading} {d : Diagnostic}
    (h : d ∈ (recognize rs).diagnostics) : ∃ r ∈ rs, d.place = r.place := by
  rcases mem_recognize_diagnostics h with ⟨r, hr, hd⟩ | ⟨t, ht, f, rfl⟩
  · exact ⟨r, hr, (place_of_mem_diagnostics hd).2⟩
  · obtain ⟨r, hr, rfl⟩ := List.mem_map.mp ht
    exact ⟨r, hr, rfl⟩

/-- Every token stands where its place says, and every diagnostic where the token stands that it
blames. -/
theorem tokens_stand_at_offsets (file text : String) :
    let cs := sourceChars text
    let rs := (Lexer.start file text).readings
    tokenize file text = rs.map Reading.token ∧
    (∃ offsets : List Nat, offsets.Pairwise (· < ·) ∧
      List.Forall₂ (Reading.StandsAt file cs) rs offsets) ∧
    (∀ p : PulledLexer, ∃ ds, p.next.2.diagnostics = p.diagnostics ++ ds ∧
      ∀ d ∈ ds, (∃ f, d.fault = .lexical f) ∧ d.place = p.next.1.token.place) ∧
    ∀ d ∈ (compile file text).diagnostics,
      (∃ f, d.fault = .lexical f ∧ ∃ r ∈ rs, d ∈ r.diagnostics ∧ d.place = r.token.place) ∨
      (∃ f, d.fault = .syntactic f ∧ ∃ t ∈ tokenize file text, d.place = t.place) := by
  intro cs rs
  refine ⟨rfl, ?_, ?_, ?_⟩
  · obtain ⟨offsets, hlt, _, hstands⟩ := exists_offsets_of_reads (reads_start file text)
    exact ⟨offsets, hlt, hstands⟩
  · intro p
    exact ⟨p.lexer.next.1.diagnostics, rfl, fun d hd => place_of_mem_diagnostics hd⟩
  · intro d hd
    rcases mem_recognize_diagnostics hd with ⟨r, hr, hd⟩ | ⟨t, ht, f, rfl⟩
    · obtain ⟨⟨f, hf⟩, hp⟩ := place_of_mem_diagnostics hd
      exact .inl ⟨f, hf, r, hr, hd, hp⟩
    · exact .inr ⟨f, rfl, t, ht, rfl⟩

end SlsLang
