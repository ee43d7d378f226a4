import SlsLang.Proofs.LineLocality
import SlsLang.Proofs.Tiling

namespace SlsLang

/-- A text that breaks off no line. -/
def WholeLines (cs : List Char) : Prop := cs = [] ∨ cs.getLast? = some '\n'

theorem wholeLines_sourceChars {a : String} (h : WholeLines a.toList) :
    WholeLines (sourceChars a) := by
  rcases toList_eq_sourceChars a with ⟨_, ha⟩ | ha
  · rwa [← ha]
  · rw [ha] at h
    rcases h with h | h
    · cases h
    · cases hs : sourceChars a with
      | nil => simp [hs] at h
      | cons c cs => exact .inr (by simpa [hs] using h)

theorem sourceChars_append (a : String) {b : String} (hmark : b.toList.head? ≠ some '\ufeff') :
    sourceChars (a ++ b) = sourceChars a ++ sourceChars b := by
  have htext : (a ++ b).toList = a.toList ++ b.toList := String.toList_append
  have hb : sourceChars b = b.toList := if_neg hmark
  rw [hb, sourceChars, htext, sourceChars]
  cases ha : a.toList with
  | nil => simp [hmark]
  | cons c cs => by_cases hc : c = '\ufeff' <;> simp [hc]

/-- An open comment stays open at the end of its line. -/
theorem throughClose?_append_newline {passed r : List Char} (h : throughClose? passed r = none) :
    throughClose? passed (r ++ ['\n']) = none := by
  fun_induction throughClose? passed r with
  | case1 => rfl
  | case2 => simp at h
  | case3 passed c r hc ih =>
    have hclose : ¬ ∃ s, c = '*' ∧ r ++ ['\n'] = '/' :: s := by
      rintro ⟨s, rfl, hs⟩
      cases r with
      | nil => simp at hs
      | cons d r =>
        obtain ⟨rfl, -⟩ := List.cons.inj hs
        exact hc r rfl rfl
    rw [List.cons_append, throughClose?_cons hclose, ih h]

theorem unterminated_append_newline {xs : List Char}
    (h : .unterminatedComment ∈ (nextLexeme xs).faults) :
    .unterminatedComment ∈ (nextLexeme (xs ++ ['\n'])).faults := by
  obtain ⟨after, hxs, hp⟩ := nextLexeme_keptOn xs
  obtain ⟨hkind, body, hslice, _⟩ := hp.unterminated_iff.mp h
  rw [hslice] at hxs
  subst hxs
  have hbody : .unterminatedComment ∈ (blockComment (body ++ after)).faults := h
  show .unterminatedComment ∈ (blockComment (body ++ after ++ ['\n'])).faults
  unfold blockComment at hbody ⊢
  cases hc : throughClose? ['*', '/'] (body ++ after) with
  | some slice => simp [hc, Lexeme.verbatim] at hbody
  | none =>
    rw [throughClose?_append_newline hc]
    exact List.mem_singleton_self _

theorem Place.between_append_lines (file : String) (before xs b : List Char) :
    Place.between file before (xs ++ '\n' :: b) = .between file before (xs ++ ['\n']) := by
  have htake := takeWhile_append_cons xs b (p := (· != '\n')) (x := '\n') rfl
  have htake' := takeWhile_append_cons xs [] (p := (· != '\n')) (x := '\n') rfl
  have hline : lineAcross before (xs ++ '\n' :: b) = lineAcross before (xs ++ ['\n']) := by
    simp only [lineAcross, htake, htake', List.mem_append, List.mem_cons, true_or, or_true, if_true]
  rw [between, hline, between]

/-- A reading stands as it did when more is written behind whole lines, and what is left behind it are
whole lines again. -/
theorem Reading.Stands.append_lines {file : String} {before after : List Char} {r : Reading}
    (h : r.Stands file before after) (hl : r.isLast = false)
    (hopen : .unterminatedComment ∉ r.lexeme.faults)
    (hlines : (r.lexeme.slice ++ after).getLast? = some '\n') (b : List Char) :
    after.getLast? = some '\n' ∧ r.Stands file before (after ++ b) := by
  obtain ⟨xs, hlines⟩ := List.getLast?_eq_some_iff.mp hlines
  have hne : xs ≠ [] := by
    rintro rfl
    have hstart := h.start '\n' (by rw [hlines]; rfl)
    exact absurd hstart (by decide)
  have hlexeme := h.lexeme
  rw [hlines] at hlexeme
  have hopen' : .unterminatedComment ∉ (nextLexeme xs).faults := fun hm =>
    hopen (hlexeme ▸ unterminated_append_newline hm)
  have halone : r.lexeme = nextLexeme xs :=
    hlexeme.trans (nextLexeme_append_newline [] hne hopen')
  obtain ⟨ys, hys, _⟩ := nextLexeme_keptOn xs
  rw [← halone] at hys
  obtain rfl : after = ys ++ ['\n'] := by
    rw [hys, List.append_assoc] at hlines
    exact List.append_cancel_left hlines
  have htext : r.lexeme.slice ++ (ys ++ ['\n'] ++ b) = xs ++ '\n' :: b := by
    rw [hys]
    simp
  have hread : r.lexeme = nextLexeme (r.lexeme.slice ++ (ys ++ ['\n'] ++ b)) := by
    rw [htext, nextLexeme_append_newline b hne hopen']
    exact halone
  refine ⟨by simp, h.of_read hl hread ?_⟩
  rw [h.place, htext, hlines, Place.between_append_lines _ _ xs b]

namespace Reads

variable {file : String} {before cs : List Char} {rs : List Reading}

theorem relocate_lines {lead : List Char} (h : Reads file before cs rs) (hlead : WholeLines lead) :
    Reads file (lead ++ before) cs
      (rs.map (Reading.relocate (.down (lead.count '\n')))) := by
  rcases hlead with rfl | hlast
  · have hsame : (Reading.relocate (.down (([] : List Char).count '\n'))) = id := rfl
    rwa [hsame, List.map_id]
  · obtain ⟨xs, rfl⟩ := List.getLast?_eq_some_iff.mp hlast
    have hmoved := h.relocate_down xs
    have hcount : (xs ++ ['\n']).count '\n' = 1 + xs.count '\n' := by
      rw [List.count_append, List.count_singleton_self, Nat.add_comm]
    rwa [hcount, List.append_assoc]

/-- Whole lines and more text read as the lines alone and then as the rest. -/
theorem append_lines {b : List Char} {more : List Reading} (h : Reads file before cs rs)
    (hlines : WholeLines cs) (hopen : ∀ r ∈ rs, .unterminatedComment ∉ r.lexeme.faults)
    (hmore : Reads file (before ++ cs) b more) :
    ∃ init last gap, rs = init ++ [last] ∧ last.isLast = true ∧ last.lexeme.faults = [] ∧
      Reads file before (cs ++ b) (init ++ readingsBehind gap more) := by
  induction h with
  | @last before r hr hl =>
    have hchars : r.chars = r.gap := by
      rw [Reading.chars, (hr.nil_of_isLast hl).1, List.append_nil]
    refine ⟨[], r, r.chars, rfl, hl, hr.faultless_of_isLast hl, hmore.behind ?_⟩
    rw [hchars]
    exact hr.gap
  | @step before after r rs hr hl _ ih =>
    obtain ⟨hfirst, hothers⟩ := List.forall_mem_cons.mp hopen
    have hne : r.lexeme.slice ++ after ≠ [] := by simp [hr.slice_ne_nil hl]
    have hlast : (r.lexeme.slice ++ after).getLast? = some '\n' := by
      rw [Reading.chars, List.append_assoc] at hlines
      rcases hlines with hnil | hlast
      · exact absurd (List.append_eq_nil_iff.mp hnil).2 hne
      · rwa [List.getLast?_append_of_ne_nil _ hne] at hlast
    obtain ⟨hafter, hstands⟩ := hr.append_lines hl hfirst hlast b
    rw [← List.append_assoc] at hmore
    obtain ⟨init, last, gap, rfl, hend, hfaults, hreads⟩ := ih (.inr hafter) hothers hmore
    rw [List.append_assoc]
    exact ⟨r :: init, last, gap, rfl, hend, hfaults, .step hstands hl hreads⟩

end Reads

/-- The readings of whole lines stay when more is written behind them, and those of what is written
behind move down by so many lines. -/
theorem readings_append_lines (file : String) {a b : String} (hlines : WholeLines a.toList)
    (hopen : ∀ r ∈ (Lexer.start file a).readings, .unterminatedComment ∉ r.lexeme.faults)
    (hmark : b.toList.head? ≠ some '\ufeff') :
    ∃ init last gap, (Lexer.start file a).readings = init ++ [last] ∧ last.isLast = true ∧
      last.lexeme.faults = [] ∧ (Lexer.start file (a ++ b)).readings = init ++ readingsBehind gap
        ((Lexer.start file b).readings.map (Reading.relocate (.down (a.toList.count '\n')))) := by
  have hsource := wholeLines_sourceChars hlines
  have hb := (reads_start file b).relocate_lines hsource
  rw [List.append_nil] at hb
  obtain ⟨init, last, gap, ha, hlast, hfaults, hreads⟩ :=
    (reads_start file a).append_lines hsource hopen hb
  have hreadings := readings_of_reads hreads
  rw [← sourceChars_append a hmark, ← Lexer.start_eq_between, count_sourceChars] at hreadings
  exact ⟨init, last, gap, ha, hlast, hfaults, hreadings⟩

end SlsLang
