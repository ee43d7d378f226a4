import SlsLang.Proofs.Lists
import SlsLang.Proofs.StatementRuns

namespace SlsLang

section Cut

/-- Tokens cut at their semicolons. What follows the last semicolon makes up the last run. -/
def runs (ts : List Token) : List (List Token) := ts.splitOnP (·.isPunctuation ";")

/-- The runs that a semicolon ends. -/
def endedRuns (ts : List Token) : List (List Token) := (runs ts).dropLast

def openRun (ts : List Token) : List Token := (runs ts).getLastD []

/-- What is recorded of the tokens of a body: the statements that their ended runs make. -/
def bodyStatements (ts : List Token) : List Statement :=
  (endedRuns ts).filterMap fun run => (classify run).statement?

def bodyFaults (ts : List Token) : List Diagnostic :=
  (endedRuns ts).flatMap fun run => (classify run).faults

theorem cut_of_runs {ts : List Token} {ended : List (List Token)} {last : List Token}
    (h : runs ts = ended ++ [last]) : endedRuns ts = ended ∧ openRun ts = last := by
  rw [endedRuns, openRun, h]
  simp

theorem runs_eq (ts : List Token) : runs ts = endedRuns ts ++ [openRun ts] := by
  obtain ⟨ended, last, hruns⟩ := List.eq_nil_or_concat (runs ts) |>.resolve_left
    (List.splitOnP_ne_nil _ ts)
  rw [List.concat_eq_append] at hruns
  obtain ⟨hended, hlast⟩ := cut_of_runs hruns
  rw [hended, hlast, hruns]

/-- A semicolon ends the open run. -/
theorem cut_concat_semicolon {t : Token} (h : t.isPunctuation ";" = true) (ts : List Token) :
    endedRuns (ts ++ [t]) = endedRuns ts ++ [openRun ts] ∧ openRun (ts ++ [t]) = [] := by
  refine cut_of_runs ?_
  rw [← runs_eq]
  exact List.splitOnP_append_cons ts [] h

/-- Any other token joins the open run. -/
theorem cut_concat {t : Token} (h : t.isPunctuation ";" = false) (ts : List Token) :
    endedRuns (ts ++ [t]) = endedRuns ts ∧ openRun (ts ++ [t]) = openRun ts ++ [t] := by
  obtain ⟨ended, last, hruns, hmore⟩ :=
    exists_splitOnP_concat (p := (·.isPunctuation ";")) h ts
  obtain ⟨hended, hlast⟩ := cut_of_runs hruns
  rw [hended, hlast]
  exact cut_of_runs hmore

/-- Where nothing closes a body yet, there is a first token that does, or the body stays open. -/
theorem exists_closing (ts : List Token) : OpenBody ts ∨
    ∃ inner closing rest, ts = inner ++ closing :: rest ∧ OpenBody inner ∧ StatementStarts inner ∧
      closing.isPunctuation "\x7d" = true := by
  induction ts using List.reverseRecOn with
  | nil => exact .inl openBody_nil
  | append_singleton ts t ih =>
    rcases ih with hopen | ⟨inner, closing, rest, rfl, hopen, hstarts, hclosing⟩
    · by_cases hcloses : t.isPunctuation "\x7d" = true ∧ StatementStarts ts
      · exact .inr ⟨ts, t, [], rfl, hopen, hcloses.2, hcloses.1⟩
      · exact .inl (openBody_concat hopen fun ht hs => hcloses ⟨ht, hs⟩)
    · exact .inr ⟨inner, closing, rest ++ [t], by simp, hopen, hstarts, hclosing⟩

end Cut

namespace Awaiting

/-- Within a body every run that a semicolon ends is classified there, and nothing else is. -/
theorem body_of_openBody {ts : List Token} (hts : ∀ t ∈ ts, t.Ordinary) (h : OpenBody ts) :
    (statement []).after ts = .statement (openRun ts).reverse ∧
      (statement []).constructs ts = (bodyStatements ts).map .statement ∧
      (statement []).faults ts = bodyFaults ts := by
  induction ts using List.reverseRecOn with
  | nil => exact ⟨rfl, rfl, rfl⟩
  | append_singleton ts t ih =>
    obtain ⟨hinit, ht⟩ := List.forall_mem_append.mp hts
    obtain ⟨hopen, hclosing⟩ := h.of_concat
    obtain ⟨hafter, hconstructs, hfaults⟩ := ih hinit hopen
    rw [after_concat, constructs_append, faults_append, constructs_singleton, faults_singleton,
      hconstructs, hfaults, hafter]
    cases hs : t.isPunctuation ";" with
    | true =>
      obtain ⟨hended, hnone⟩ := cut_concat_semicolon hs ts
      have hstatements : bodyStatements (ts ++ [t]) =
          bodyStatements ts ++ (classify (openRun ts)).statement?.toList := by
        rw [bodyStatements, hended, List.filterMap_append, bodyStatements]
        cases hc : (classify (openRun ts)).statement? <;> simp [hc]
      have hblamed : bodyFaults (ts ++ [t]) = bodyFaults ts ++ (classify (openRun ts)).faults := by
        rw [bodyFaults, hended, List.flatMap_append, List.flatMap_singleton, bodyFaults]
      rw [respond_statement_semicolon hs, hnone, hstatements, hblamed, List.reverse_reverse,
        List.map_append, Option.toList_map]
      exact ⟨rfl, rfl, rfl⟩
    | false =>
      obtain ⟨hended, hmore⟩ := cut_concat hs ts
      -- A run is empty exactly where a statement may start, and no brace closes the body there.
      obtain ⟨run, hrun, hstarts⟩ := after_of_openBody hinit hopen
      obtain rfl : (openRun ts).reverse = run := by simpa [hafter] using hrun
      have hbrace : (openRun ts).reverse = [] → t.isPunctuation "\x7d" = false := fun hnone =>
        Bool.eq_false_iff.mpr fun hb => hclosing hb (hstarts.mp hnone)
      rw [respond_statement (ht t (by simp)) hs hbrace, hmore, List.reverse_concat, bodyStatements,
        bodyStatements, bodyFaults, bodyFaults, hended]
      exact ⟨rfl, List.append_nil _, List.append_nil _⟩

end Awaiting

end SlsLang
