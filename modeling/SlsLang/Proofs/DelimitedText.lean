import SlsLang.Lines
import SlsLang.Proofs.Lists

namespace SlsLang

section Digits

theorem notMem_toDigits {c : Char} (h : c.isDigit = false) (n : Nat) : c ∉ Nat.toDigits 10 n := by
  intro hmem
  rw [Nat.isDigit_of_mem_toDigits (by decide) (by decide) hmem] at h
  cases h

theorem toDigits_injective : Function.Injective (Nat.toDigits 10) := fun m n h => by
  rw [← Nat.ofDigitChars_ten_toDigits (n := m), h, Nat.ofDigitChars_ten_toDigits]

end Digits

section Lines

theorem splitOn_unlines {lines : List String} (h : ∀ l ∈ lines, '\n' ∉ l.toList) :
    (unlines lines).toList.splitOn '\n' = lines.map String.toList ++ [[]] := by
  rw [toList_unlines]
  induction lines with
  | nil => simp
  | cons l lines ih =>
    obtain ⟨hl, hlines⟩ := List.forall_mem_cons.mp h
    rw [List.flatMap_cons, List.append_assoc, List.singleton_append,
      List.splitOn_append_cons_self_of_not_mem hl, ih hlines, List.map_cons, List.cons_append]

theorem eq_of_unlines_eq {xs ys : List String} (hxs : ∀ l ∈ xs, '\n' ∉ l.toList)
    (hys : ∀ l ∈ ys, '\n' ∉ l.toList) (h : unlines xs = unlines ys) : xs = ys := by
  have hsplit := congrArg (fun text : String => text.toList.splitOn '\n') h
  simp only [splitOn_unlines hxs, splitOn_unlines hys] at hsplit
  exact List.map_injective_iff.mpr (fun _ _ => String.toList_injective)
    (List.append_cancel_right hsplit)

theorem count_newline_unlines (lines : List String) : (unlines lines).toList.count '\n' =
    lines.length + (lines.flatMap String.toList).count '\n' := by
  rw [toList_unlines]
  induction lines with
  | nil => rfl
  | cons l lines ih =>
    simp only [List.flatMap_cons, List.count_append, List.count_singleton_self, List.length_cons, ih]
    omega

/-- A text of lines has these lines exactly if none of them has a line break within. -/
theorem splitOn_unlines_iff (lines : List String) :
    (unlines lines).toList.splitOn '\n' = lines.map String.toList ++ [[]] ↔
      (lines.flatMap String.toList).count '\n' = 0 := by
  constructor
  · intro h
    have hlength := congrArg List.length h
    rw [length_splitOn, count_newline_unlines, List.length_append, List.length_map,
      List.length_singleton] at hlength
    omega
  · intro h
    refine splitOn_unlines fun l hl hn => ?_
    exact List.count_eq_zero.mp h (List.mem_flatMap.mpr ⟨l, hl, hn⟩)

end Lines

end SlsLang
