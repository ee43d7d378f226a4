import SlsLang.Proofs.ReadThrough

namespace SlsLang

/-- Earlier in a text: on an earlier line, or further to the left on the same line. -/
def Place.Before (p q : Place) : Prop := p.line < q.line ∨ p.line = q.line ∧ p.column < q.column

instance (p q : Place) : Decidable (p.Before q) := inferInstanceAs (Decidable (_ ∨ _))

theorem lastLine_append (xs : List Char) {ys : List Char} (h : '\n' ∉ ys) :
    lastLine (xs ++ ys) = lastLine xs ++ ys := by
  induction ys using List.reverseRecOn with
  | nil => simp
  | append_singleton ys c ih =>
    obtain ⟨hys, hc⟩ := not_or.mp (List.mem_append.not.mp h)
    rw [← List.append_assoc, lastLine_concat _ (Ne.symm (by simpa using hc)), ih hys,
      List.append_assoc]

/-- Reading on, by whatever it is, comes to a later place. -/
theorem Place.between_before (file : String) (before after rest : List Char) {slice : List Char}
    (h : slice ≠ []) :
    (Place.between file before after).Before (.between file (before ++ slice) rest) := by
  by_cases hn : '\n' ∈ slice
  · have hcount : 0 < slice.count '\n' := List.count_pos_iff.mpr hn
    refine .inl ?_
    simp only [between, List.count_append]
    omega
  · have hcount : slice.count '\n' = 0 := List.count_eq_zero.mpr hn
    have hlength : 0 < slice.length := List.length_pos_iff.mpr h
    refine .inr ⟨?_, ?_⟩
    · simp only [between, List.count_append, hcount, Nat.add_zero]
    · simp only [between, lastLine_append before hn, List.length_append]
      omega

theorem places_inOrder {file : String} {before cs : List Char} {rs : List Reading}
    (h : Reads file before cs rs) : rs.Pairwise fun r s => r.place.Before s.place := by
  induction h with
  | last => simp
  | @step before after r rs hr hl hrest ih =>
    refine List.pairwise_cons.mpr ⟨fun s hs => ?_, ih⟩
    obtain ⟨xs, ys, rfl⟩ := List.append_of_mem hs
    have hplace := (stands_of_reads hrest rfl).1.place
    -- All of `s` is read behind the slice of `r`, which is not empty.
    have hbehind : before ++ r.chars ++ xs.flatMap Reading.chars ++ s.gap =
        before ++ r.gap ++ (r.lexeme.slice ++ (xs.flatMap Reading.chars ++ s.gap)) := by
      simp [Reading.chars, List.append_assoc]
    rw [hr.place, hplace, hbehind]
    exact Place.between_before file _ _ _ (by simp [hr.slice_ne_nil hl])

/-- The tokens of a text stand in it one behind the other. -/
theorem tokens_inOrder (file text : String) :
    (tokenize file text).Pairwise fun t u => t.place.Before u.place :=
  List.pairwise_map.mpr (places_inOrder (reads_start file text))

end SlsLang
