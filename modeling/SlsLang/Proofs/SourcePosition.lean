import Mathlib.Data.List.TakeWhile
import SlsLang.Lexer

namespace SlsLang

/-- The characters of a source text, past one byte order mark. -/
def sourceChars (text : String) : List Char :=
  if text.toList.head? = some '\ufeff' then text.toList.tail else text.toList

/-- What a text holds behind its last newline. -/
def lastLine (cs : List Char) : List Char := (cs.reverse.takeWhile (· != '\n')).reverse

/-- The line on which `before` ends and `after` starts, without its line break. -/
def lineAcross (before after : List Char) : List Char :=
  let line := lastLine before ++ after.takeWhile (· != '\n')
  if '\n' ∈ after then dropReturn line else line

/-- The place of the first character of `after`, counted out over the whole of `before`. -/
def Place.between (file : String) (before after : List Char) : Place :=
  ⟨file, 1 + before.count '\n', 1 + (lastLine before).length,
    String.ofList (lineAcross before after)⟩

theorem newline_not_mem_lastLine (cs : List Char) : '\n' ∉ lastLine cs := by
  intro h
  rw [lastLine, List.mem_reverse] at h
  simpa using List.mem_takeWhile_imp h

theorem lastLine_suffix (cs : List Char) : lastLine cs <:+ cs := by
  rw [← List.reverse_prefix, lastLine, List.reverse_reverse]
  exact List.takeWhile_prefix _

theorem lastLine_concat_newline (cs : List Char) : lastLine (cs ++ ['\n']) = [] := by
  simp [lastLine]

theorem lastLine_concat {c : Char} (cs : List Char) (h : c ≠ '\n') :
    lastLine (cs ++ [c]) = lastLine cs ++ [c] := by
  simp [lastLine, h]

theorem lineAcross_concat {c : Char} (before after : List Char) (h : c ≠ '\n') :
    lineAcross (before ++ [c]) after = lineAcross before (c :: after) := by
  simp [lineAcross, lastLine_concat before h, h, Ne.symm h]

theorem firstLine_eq_lineAcross {before : List Char} (after : List Char)
    (h : lastLine before = []) : firstLine after = lineAcross before after := by
  have he : (after.dropWhile (· != '\n')).isEmpty = true ↔ '\n' ∉ after := by
    simp only [List.isEmpty_iff, List.dropWhile_eq_nil_iff, bne_iff_ne]
    exact ⟨fun hne hm => hne '\n' hm rfl, fun hn c hc hcn => hn (hcn ▸ hc)⟩
  by_cases hn : '\n' ∈ after <;> simp [firstLine, lineAcross, h, hn, he]

namespace Cursor

/-- The cursor that has read `before` and has `after` left, with nothing counted on the way. -/
def between (before after : List Char) : Cursor :=
  ⟨after, 1 + before.count '\n', 1 + (lastLine before).length,
    String.ofList (lineAcross before after)⟩

theorem rest_between (before after : List Char) : (between before after).rest = after := rfl

theorem advance_between (before after : List Char) (c : Char) :
    (between before (c :: after)).advance = between (before ++ [c]) after := by
  by_cases h : c = '\n'
  · subst c
    have hl := lastLine_concat_newline before
    simp [between, advance, hl, firstLine_eq_lineAcross after hl, Nat.add_assoc]
  · have hl := lastLine_concat before h
    have ha := lineAcross_concat before after h
    simp [between, advance, hl, ha, h, Nat.add_assoc]

theorem skip_between (before slice after : List Char) :
    (between before (slice ++ after)).skip slice.length = between (before ++ slice) after := by
  induction slice generalizing before with
  | nil => simp [skip]
  | cons c r ih =>
    rw [List.length_cons, skip, List.cons_append, advance_between, ih]
    simp

theorem start_eq_between (text : String) : start text = between [] (sourceChars text) := by
  unfold start sourceChars
  have hl : lastLine [] = [] := rfl
  split
  next r h => simp [between, h, hl, firstLine_eq_lineAcross r hl]
  next cs hcs =>
    have hh : text.toList.head? ≠ some '\ufeff' := by
      intro he
      obtain ⟨r, hr⟩ := List.head?_eq_some_iff.mp he
      exact hcs r hr
    simp [between, hh, hl, firstLine_eq_lineAcross text.toList hl]

end Cursor

end SlsLang
