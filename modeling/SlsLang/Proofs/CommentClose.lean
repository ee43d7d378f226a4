import Mathlib.Data.List.DropRight
import Mathlib.Data.List.Infix
import SlsLang.NextLexeme

namespace SlsLang

/-- The characters hold the end of a block comment. -/
def HasClose (cs : List Char) : Prop := ['*', '/'] <:+: cs

theorem hasClose_cons {c : Char} {r : List Char} :
    HasClose (c :: r) ↔ (∃ s, c = '*' ∧ r = '/' :: s) ∨ HasClose r := by
  rw [HasClose, List.infix_cons_iff, HasClose]
  refine or_congr ⟨?_, ?_⟩ Iff.rfl
  · rintro ⟨s, hs⟩
    obtain ⟨hc, hr⟩ := List.cons.inj hs
    exact ⟨s, hc.symm, hr.symm⟩
  · rintro ⟨s, rfl, rfl⟩
    exact ⟨s, rfl⟩

theorem not_hasClose_nil : ¬ HasClose [] := by simp [HasClose]

/-- What is found is the first close: none ends sooner. -/
theorem throughClose?_some {passed r slice : List Char} (h : throughClose? passed r = some slice) :
    ∃ body after, r = body ++ '*' :: '/' :: after ∧ slice = passed.reverse ++ (body ++ ['*', '/']) ∧
      ¬ HasClose (body ++ ['*']) := by
  fun_induction throughClose? passed r with
  | case1 => simp at h
  | case2 passed r =>
    cases h
    exact ⟨[], r, rfl, by simp, by simp [hasClose_cons, not_hasClose_nil]⟩
  | case3 passed c r hc ih =>
    obtain ⟨body, after, hr, hs, hn⟩ := ih h
    refine ⟨c :: body, after, by simp [hr], by simp [hs], ?_⟩
    rw [List.cons_append, hasClose_cons]
    rintro (⟨s, hcs, hbs⟩ | hi)
    · cases body with
      | nil => simp at hbs
      | cons d body =>
        obtain ⟨rfl, _⟩ := List.cons.inj hbs
        exact hc _ hcs hr
    · exact hn hi

theorem throughClose?_none {passed r : List Char} (h : throughClose? passed r = none) :
    ¬ HasClose r := by
  fun_induction throughClose? passed r with
  | case1 => exact not_hasClose_nil
  | case2 => simp at h
  | case3 passed c r hc ih =>
    rw [hasClose_cons]
    rintro (⟨s, hcs, hr⟩ | hi)
    · exact hc s hcs hr
    · exact ih h hi

/-- A comment whose first close is its end is read up to there, whatever follows. -/
theorem throughClose?_of_first {body : List Char} (h : ¬ HasClose (body ++ ['*']))
    (passed after : List Char) :
    throughClose? passed (body ++ '*' :: '/' :: after) =
      some (passed.reverse ++ (body ++ ['*', '/'])) := by
  induction body generalizing passed with
  | nil => simp [throughClose?]
  | cons c body ih =>
    rw [List.cons_append, hasClose_cons, not_or] at h
    have hc : ¬ ∃ s, c = '*' ∧ body ++ '*' :: '/' :: after = '/' :: s := by
      rintro ⟨s, hcs, hbs⟩
      cases body with
      | nil => simp at hbs
      | cons d body =>
        obtain ⟨rfl, _⟩ := List.cons.inj hbs
        exact h.1 ⟨_, hcs, rfl⟩
    rw [List.cons_append, throughClose?_cons hc, ih h.2]
    simp

theorem dropTrailingReturns_eq (cs : List Char) :
    dropTrailingReturns cs = cs.rdropWhile (· == '\r') := rfl

/-- What is dropped are returns, and no return is left at the end. -/
theorem dropTrailingReturns_append (cs : List Char) :
    (∃ n, cs = dropTrailingReturns cs ++ List.replicate n '\r') ∧
      (dropTrailingReturns cs).getLast? ≠ some '\r' := by
  rw [dropTrailingReturns_eq]
  constructor
  · refine ⟨(cs.rtakeWhile (· == '\r')).length, ?_⟩
    have ht : cs.rtakeWhile (· == '\r') = List.replicate (cs.rtakeWhile (· == '\r')).length '\r' :=
      List.eq_replicate_of_mem fun c hc => by simpa using List.mem_rtakeWhile_imp hc
    rw [← ht, List.rdropWhile_append_rtakeWhile]
  · intro hl
    obtain ⟨init, hi⟩ := List.getLast?_eq_some_iff.mp hl
    have hn := List.rdropWhile_last_not (· == '\r') cs (by simp [hi])
    simp [hi] at hn

theorem dropTrailingReturns_eq_self {cs : List Char} (h : cs.getLast? ≠ some '\r') :
    dropTrailingReturns cs = cs := by
  obtain ⟨n, hn⟩ := (dropTrailingReturns_append cs).1
  cases n with
  | zero => simpa using hn.symm
  | succ n =>
    rw [hn, List.replicate_succ'] at h
    simp at h

end SlsLang
