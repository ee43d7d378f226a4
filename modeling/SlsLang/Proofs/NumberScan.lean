import Mathlib.Data.List.TakeWhile
import SlsLang.NumberLexeme

namespace SlsLang

/-- The type that the marks of a constant give it. A suffix for a float takes precedence, then the
point. -/
def numberKind (digits : List Char) : TokenKind :=
  if digits.any (fun c => c == 'f' || c == 'F') then .float
  else if digits.contains '.' then .double
  else if digits.any (fun c => c == 'l' || c == 'L') then .int64
  else .int32

/-- Every point after the first mark of a constant is one too many. -/
def strayPoints (digits : List Char) : List LexicalFault :=
  (((digits.dropWhile (!isNumberMark ·)).drop 1).filter (· == '.')).map .invalidFloatSuffix

/-- The fault of a separator in front. -/
def frontSeparator (slice : List Char) : List LexicalFault :=
  if slice.head? = some '\'' then [.leadingSeparator] else []

/-- The fault of a separator at the end. One that stands alone stands in front. -/
def endSeparator (slice : List Char) : List LexicalFault :=
  if slice.getLast? = some '\'' ∧ slice ≠ ['\''] then [.trailingSeparator] else []

theorem eq_of_mem_frontSeparator {slice : List Char} {f : LexicalFault}
    (h : f ∈ frontSeparator slice) : f = .leadingSeparator := by
  unfold frontSeparator at h
  split at h
  · exact List.mem_singleton.mp h
  · cases h

theorem eq_of_mem_endSeparator {slice : List Char} {f : LexicalFault}
    (h : f ∈ endSeparator slice) : f = .trailingSeparator := by
  unfold endSeparator at h
  split at h
  · exact List.mem_singleton.mp h
  · cases h

/-- Reading on by one character adds a stray point exactly for a point behind some mark. -/
theorem strayPoints_concat (cs : List Char) (c : Char) :
    strayPoints (cs ++ [c]) = strayPoints cs ++
      if c = '.' ∧ cs.any isNumberMark = true then [.invalidFloatSuffix '.'] else [] := by
  rw [strayPoints, strayPoints, List.dropWhile_append]
  cases hmark : cs.any isNumberMark with
  | true =>
    obtain ⟨m, hm, hmarked⟩ := List.any_eq_true.mp hmark
    have hne : cs.dropWhile (!isNumberMark ·) ≠ [] := by
      intro hnil
      have := List.dropWhile_eq_nil_iff.mp hnil m hm
      simp [hmarked] at this
    obtain ⟨first, rest, hrest⟩ := List.exists_cons_of_ne_nil hne
    rw [hrest]
    by_cases hc : c = '.' <;> simp [hc]
  | false =>
    have hnil : cs.dropWhile (!isNumberMark ·) = [] := by
      rw [List.dropWhile_eq_nil_iff]
      intro m hm
      simpa using List.any_eq_false.mp hmark m hm
    rw [hnil]
    cases hc : isNumberMark c <;> simp [hc]

theorem numberKind_eq (digits : List Char) : numberKind digits =
    if 'f' ∈ digits ∨ 'F' ∈ digits then .float
    else if '.' ∈ digits then .double
    else if 'l' ∈ digits ∨ 'L' ∈ digits then .int64
    else .int32 := by
  have hany : ∀ a b, digits.any (fun c => c == a || c == b) = true ↔ a ∈ digits ∨ b ∈ digits := by
    intro a b
    simp only [List.any_eq_true, Bool.or_eq_true, beq_iff_eq]
    constructor
    · rintro ⟨c, hc, rfl | rfl⟩
      · exact .inl hc
      · exact .inr hc
    · rintro (hc | hc)
      · exact ⟨a, hc, .inl rfl⟩
      · exact ⟨b, hc, .inr rfl⟩
  simp only [numberKind, hany, List.contains_iff_mem]

theorem isNumberMark_iff {c : Char} : isNumberMark c = true ↔
    c = '.' ∨ (c = 'f' ∨ c = 'F') ∨ c = 'l' ∨ c = 'L' := by
  simp [isNumberMark, isSuffix, suffixChars, or_assoc]

namespace NumberScan

/-- What a scan that started with the faults `front` has kept of the characters it has read. -/
structure Knows (s : NumberScan) (front : List LexicalFault) (read : List Char) : Prop where
  text : s.text.reverse = read.filter (· != '\'')
  floatSuffix : s.floatSuffix = true ↔ 'f' ∈ s.text ∨ 'F' ∈ s.text
  longSuffix : s.longSuffix = true ↔ 'l' ∈ s.text ∨ 'L' ∈ s.text
  floating : s.floating = true ↔ '.' ∈ s.text ∨ s.floatSuffix = true
  dangling : s.dangling = true ↔ read.getLast? = some '\''
  faults : s.faults.reverse = front ++ strayPoints s.text.reverse

variable {s next : NumberScan} {front : List LexicalFault} {read : List Char} {c : Char}

theorem knows_start (slice : List Char) (faults : List LexicalFault) :
    Knows { slice, faults } faults.reverse [] :=
  ⟨rfl, by simp, by simp, by simp, by simp, (List.append_nil _).symm⟩

/-- Two of the flags tell whether there has been a mark. -/
theorem Knows.marked (h : s.Knows front read) :
    s.text.reverse.any isNumberMark = true ↔ s.floating = true ∨ s.longSuffix = true := by
  rw [h.floating, h.floatSuffix, h.longSuffix, List.any_eq_true]
  simp only [List.mem_reverse, isNumberMark_iff]
  grind

theorem Knows.text_push (h : s.Knows front read) (hc : c ≠ '\'') :
    (s.push c).text.reverse = (read ++ [c]).filter (· != '\'') := by
  simp [push, h.text, hc]

theorem not_dangling_push (s : NumberScan) (read : List Char) (hc : c ≠ '\'') :
    (s.push c).dangling = true ↔ (read ++ [c]).getLast? = some '\'' := by
  simp [push, hc]

/-- No other mark than a point can be one too many. -/
theorem Knows.faults_push (h : s.Knows front read) (hc : c ≠ '.') :
    s.faults.reverse = front ++ strayPoints (s.push c).text.reverse := by
  rw [push, List.reverse_cons, strayPoints_concat, if_neg fun hpoint => hc hpoint.1,
    List.append_nil]
  exact h.faults

theorem Knows.pushPoint (h : s.Knows front read) : s.pushPoint.Knows front (read ++ ['.']) := by
  have hpoint : ('.' : Char) ≠ '\'' := by decide
  refine ⟨h.text_push hpoint, ?_, ?_, by simp [NumberScan.pushPoint, push],
    not_dangling_push s read hpoint, ?_⟩
  · simpa [NumberScan.pushPoint, push] using h.floatSuffix
  · simpa [NumberScan.pushPoint, push] using h.longSuffix
  · simp only [NumberScan.pushPoint, push, List.reverse_cons, strayPoints_concat, true_and]
    rw [← List.append_assoc, ← h.faults]
    by_cases hmark : s.floating = true ∨ s.longSuffix = true
    · rw [if_pos (h.marked.mpr hmark), if_pos (by simpa using hmark), List.reverse_cons]
    · rw [if_neg (hmark ∘ h.marked.mp), if_neg (by simpa using hmark), List.append_nil]

/-- Of the marks other than a point, the flags tell those of the text and the one that joins it. -/
theorem Knows.pushMarked (h : s.Knows front read) (hquote : c ≠ '\'') (hpoint : c ≠ '.')
    {floating floatSuffix longSuffix : Bool}
    (hfloating : floating = true ↔ (c = 'f' ∨ c = 'F') ∨ s.floating = true)
    (hfloat : floatSuffix = true ↔ (c = 'f' ∨ c = 'F') ∨ s.floatSuffix = true)
    (hlong : longSuffix = true ↔ (c = 'l' ∨ c = 'L') ∨ s.longSuffix = true) :
    Knows { s.push c with floating, floatSuffix, longSuffix } front (read ++ [c]) := by
  have hmem : ∀ d, d ∈ (s.push c).text ↔ c = d ∨ d ∈ s.text := fun d => by
    simp [push, eq_comm]
  refine ⟨h.text_push hquote, ?_, ?_, ?_, not_dangling_push s read hquote, h.faults_push hpoint⟩
  · rw [hfloat, h.floatSuffix, hmem, hmem, or_or_or_comm]
  · rw [hlong, h.longSuffix, hmem, hmem, or_or_or_comm]
  · rw [hfloating, h.floating, hfloat, hmem, or_iff_right hpoint, or_left_comm]

/-- One more character leads from what is known of the characters before it to what is known of all. -/
theorem Knows.step (h : s.Knows front read) (hstep : s.step? c = some next) :
    next.Knows front (read ++ [c]) := by
  unfold step? at hstep
  split at hstep
  next hquote =>
    cases hstep
    exact ⟨by simp [h.text, hquote], h.floatSuffix, h.longSuffix, h.floating, by simp [hquote],
      h.faults⟩
  next hquote =>
    split at hstep
    · cases hstep
    split at hstep
    next hpoint =>
      cases hstep
      exact hpoint ▸ h.pushPoint
    next hpoint =>
      split at hstep
      next hfloat =>
        cases hstep
        have hlong : ¬(c = 'l' ∨ c = 'L') := by rcases hfloat with rfl | rfl <;> decide
        exact h.pushMarked hquote hpoint (by simp [hfloat]) (by simp [hfloat])
          (or_iff_right hlong).symm
      next hfloat =>
        split at hstep
        next hlong =>
          cases hstep
          exact h.pushMarked hquote hpoint (or_iff_right hfloat).symm (or_iff_right hfloat).symm
            (by simp [hlong])
        next hlong =>
          split at hstep
          · cases hstep
            exact h.pushMarked hquote hpoint (or_iff_right hfloat).symm (or_iff_right hfloat).symm
              (or_iff_right hlong).symm
          · cases hstep

/-- A whole run knows as much of all that it takes up. -/
theorem Knows.run (h : s.Knows front read) (cs : List Char) :
    (s.run cs).Knows front (read ++ cs.takeWhile isNumberChar) := by
  induction cs generalizing s read with
  | nil => simpa [NumberScan.run] using h
  | cons c r ih =>
    have hsome := s.isSome_step? c
    cases hstep : s.step? c with
    | none =>
      rw [hstep, Option.isSome_none] at hsome
      simpa [NumberScan.run, hstep, ← hsome] using h
    | some next =>
      rw [hstep, Option.isSome_some] at hsome
      simpa [NumberScan.run, hstep, ← hsome] using ih (h.step hstep)

theorem Knows.kind_eq (h : s.Knows front read) : s.kind = numberKind s.text.reverse := by
  have hfloating := h.floating
  simp only [numberKind_eq, List.mem_reverse, ← h.floatSuffix, ← h.longSuffix]
  unfold kind
  grind

theorem Knows.lexeme_run (h : s.Knows front []) (cs : List Char) :
    let body := cs.takeWhile isNumberChar
    let digits := body.filter (· != '\'')
    (s.run cs).lexeme = ⟨numberKind digits, s.slice.reverse ++ body, String.ofList digits,
      front ++ strayPoints digits ++
        if body.getLast? = some '\'' then [.trailingSeparator] else []⟩ := by
  intro body digits
  have hrun : (s.run cs).Knows front body := h.run cs
  have hslice : (s.run cs).slice.reverse = s.slice.reverse ++ body := by
    rw [slice_run, List.reverse_append, List.reverse_reverse]
  have htext : (s.run cs).text.reverse = digits := hrun.text
  rw [lexeme, hrun.kind_eq, hslice, htext, ← htext, ← hrun.faults]
  congr 1
  by_cases hdangling : (s.run cs).dangling = true
  · rw [if_pos hdangling, if_pos (hrun.dangling.mp hdangling), List.reverse_cons]
  · rw [if_neg hdangling, if_neg (hdangling ∘ hrun.dangling.mpr), List.append_nil]

end NumberScan

theorem endSeparator_quote (body : List Char) : endSeparator ('\'' :: body) =
    if body.getLast? = some '\'' then [.trailingSeparator] else [] := by
  cases body with
  | nil => rfl
  | cons c body => simp [endSeparator]

theorem endSeparator_of_head {slice : List Char} (h : slice.head? ≠ some '\'') :
    endSeparator slice = if slice.getLast? = some '\'' then [.trailingSeparator] else [] := by
  have hne : slice ≠ ['\''] := fun hslice => h (by rw [hslice]; rfl)
  simp only [endSeparator, hne, ne_eq, not_false_eq_true, and_true]

/-- The text of a constant without its separators tells its type and which of its points are too many,
and what is at its ends tells of separators there. -/
theorem numberConstant_eq (cs : List Char) :
    let slice := cs.takeWhile isNumberChar
    let digits := slice.filter (· != '\'')
    numberConstant cs = ⟨numberKind digits, slice, String.ofList digits,
      frontSeparator slice ++ strayPoints digits ++ endSeparator slice⟩ := by
  intro slice digits
  unfold numberConstant
  split
  next r =>
    have hstart : NumberScan.separated.Knows [.leadingSeparator] [] :=
      NumberScan.knows_start ['\''] [.leadingSeparator]
    have hslice : slice = '\'' :: r.takeWhile isNumberChar := List.takeWhile_cons_of_pos (by decide)
    have hdigits : digits = (r.takeWhile isNumberChar).filter (· != '\'') := by
      simp only [digits, hslice]
      rfl
    rw [hstart.lexeme_run, hdigits, hslice, endSeparator_quote]
    rfl
  next hquote =>
    have hstart : NumberScan.Knows {} [] [] := NumberScan.knows_start [] []
    have hhead : slice.head? ≠ some '\'' := by
      intro hh
      cases cs with
      | nil => cases hh
      | cons c r =>
        simp only [slice, List.takeWhile_cons] at hh
        split at hh
        · exact hquote r (by rw [Option.some.inj hh])
        · cases hh
    rw [hstart.lexeme_run, endSeparator_of_head hhead, frontSeparator, if_neg hhead]
    rfl

/-- Only the slice of a constant counts. -/
theorem numberConstant_congr {cs cs' : List Char}
    (h : cs.takeWhile isNumberChar = cs'.takeWhile isNumberChar) :
    numberConstant cs = numberConstant cs' := by
  simp only [numberConstant_eq, h]

end SlsLang
