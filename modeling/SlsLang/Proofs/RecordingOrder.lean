import SlsLang.Proofs.StatementRuns
import SlsLang.Proofs.TokenPlaces

namespace SlsLang

/-- No token of a statement is misspelled behind one that the statement is faulted for. -/
def FaultedLast (file text : String) : Prop :=
  ∀ run, IsStatement (tokenize file text) run → ∀ d ∈ (classify (significant run)).faults,
    ∀ e ∈ spellingFaults file text, (∃ t ∈ run, t.place = e.place) → e.place.NoLater d.place

/-- Recorded in the order of the text, if one blames a spelling and the other does not. -/
def Diagnostic.Across (d e : Diagnostic) : Prop :=
  d.isLexical ≠ e.isLexical → d.place.NoLater e.place

/-- A fault falls on the token that is answered, unless it is one of the statement that ends there. -/
theorem Awaiting.place_of_mem_faults {a : Awaiting} {t : Token} {d : Diagnostic}
    (h : d ∈ (a.respond t).faults) : d.place = t.place ∨ ∃ kept, a = .statement kept ∧
      t.isPunctuation ";" = true ∧ d ∈ (classify kept.reverse).faults := by
  by_cases ha : ∃ kept, a = .statement kept
  · obtain ⟨kept, rfl⟩ := ha
    simp only [respond, respondTo] at h
    split_ifs at h with hc hb he hs
    · simp [Response.pass] at h
    · simp [Response.pass] at h
    · obtain rfl : d = t.blame .unexpectedEndOfFile := by simpa [Response.refuse] using h
      exact .inl rfl
    · exact .inr ⟨kept, rfl, hs, h⟩
    · simp [Response.pass] at h
  · have hanswer := a.answer_respond t
    generalize a.respond t = r at h hanswer
    cases hanswer with
    | skip => simp [Response.pass] at h
    | pass => simp [Response.pass] at h
    | accept => simp [Response.accept] at h
    | refuse f =>
      obtain rfl : d = t.blame f := by simpa [Response.refuse] using h
      exact .inl rfl
    | classified due => exact (ha ⟨_, due⟩).elim

/-- A mark, or a character that starts no token, cannot be misspelled. -/
theorem Reading.Stands.diagnostics_of_single {file : String} {before after : List Char}
    {r : Reading} (h : r.Stands file before after)
    (hkind : r.token.kind = .punctuation ∨ r.token.kind = .invalid) : r.diagnostics = [] := by
  have hpromise := h.promise
  change r.lexeme.kind = .punctuation ∨ r.lexeme.kind = .invalid at hkind
  rcases hkind with hkind | hkind <;> rw [Lexeme.Promise, hkind] at hpromise <;>
    rw [diagnostics, hpromise.faultless, List.map_nil]

/-- What comes of one reading is recorded in order: a mark that ends a statement is well spelled. -/
theorem Reading.Stands.across {file : String} {before after : List Char} {r : Reading}
    (h : r.Stands file before after) (a : Awaiting) :
    (r.diagnostics ++ (a.respond r.token).faults).Pairwise Diagnostic.Across := by
  have hspelling : ∀ d ∈ r.diagnostics, d.isLexical = true := fun d => isLexical_of_mem_diagnostics
  have hfault : ∀ d ∈ (a.respond r.token).faults, d.isLexical = false := fun d =>
    isLexical_of_blames (a.respond_answers r.token).blames
  refine List.pairwise_append.mpr ⟨?_, ?_, fun d hd e he _ => ?_⟩
  · refine List.pairwise_of_forall_mem_list fun d hd e he hkinds => ?_
    exact (hkinds (by rw [hspelling d hd, hspelling e he])).elim
  · refine List.pairwise_of_forall_mem_list fun d hd e he hkinds => ?_
    exact (hkinds (by rw [hfault d hd, hfault e he])).elim
  · rcases Awaiting.place_of_mem_faults he with heq | ⟨kept, -, hsemicolon, -⟩
    · rw [(place_of_mem_diagnostics hd).2, heq]
      exact Place.noLater_refl _
    · rw [h.diagnostics_of_single (.inl (Token.kind_of_isPunctuation hsemicolon).1)] at hd
      simp at hd

section Text

variable {file text : String}

/-- What is wrong with the statement that ends at `r` is recorded in order, though all its tokens were
read before. -/
theorem FaultedLast.noLater_of_statement (h : FaultedLast file text) {xs ys : List Reading}
    {r : Reading} (hrs : (Lexer.start file text).readings = xs ++ r :: ys) {kept : List Token}
    (hafter : Awaiting.function.after (xs.map Reading.token) = .statement kept)
    (hsemicolon : r.token.isPunctuation ";" = true) {d e : Diagnostic}
    (hd : d ∈ xs.flatMap Reading.diagnostics) (he : e ∈ (classify kept.reverse).faults) :
    d.place.NoLater e.place := by
  obtain ⟨q, hq, hdq⟩ := List.mem_flatMap.mp hd
  have hplace : d.place = q.token.place := (place_of_mem_diagnostics hdq).2
  have htokens : tokenize file text = xs.map Reading.token ++ r.token :: ys.map Reading.token := by
    rw [tokenize, hrs, List.map_append, List.map_cons]
  obtain ⟨before, run, hsplit, hrun, hstatement⟩ := exists_isStatement htokens hafter hsemicolon
  rw [← hrun] at he
  have hmem : q.token ∈ before ++ run := hsplit ▸ List.mem_map_of_mem hq
  rcases List.mem_append.mp hmem with hbefore | hin
  · have horder := tokens_inOrder file text
    rw [htokens, hsplit] at horder
    have hparts := (List.pairwise_append.mp (List.pairwise_append.mp horder).1).2.2
    obtain ⟨u, hu, hue⟩ := (classify_blamesInOrder (significant run)).exists_place he
    rw [hplace, ← hue]
    exact (hparts _ hbefore u (List.mem_of_mem_filter hu)).noLater
  · have hspelling : d ∈ spellingFaults file text :=
      List.mem_flatMap.mpr ⟨q, by simp [hrs, hq], hdq⟩
    exact h run hstatement e he d hspelling ⟨q.token, hin, hplace.symm⟩

/-- If statements are faulted last, nothing is recorded too late among faults of the other kind. -/
theorem FaultedLast.across (h : FaultedLast file text) {xs ys : List Reading}
    (hrs : (Lexer.start file text).readings = xs ++ ys) :
    (blamed .function xs).Pairwise Diagnostic.Across := by
  induction xs using List.reverseRecOn generalizing ys with
  | nil => simp [blamed]
  | append_singleton xs r ih =>
    rw [List.append_assoc, List.singleton_append] at hrs
    have hstands := (stands_of_reads (reads_start file text) hrs).1
    have horder := places_inOrder (reads_start file text)
    rw [hrs] at horder
    have hbehind : ∀ d ∈ blamed .function xs, ∀ e : Diagnostic, e.place = r.place →
        d.place.NoLater e.place := by
      intro d hd e he
      obtain ⟨q, hq, hdq⟩ := place_of_mem_recognize hd
      rw [hdq, he]
      exact ((List.pairwise_append.mp horder).2.2 q hq r List.mem_cons_self).noLater
    rw [blamed_append, blamed_singleton]
    refine List.pairwise_append.mpr ⟨ih hrs, hstands.across _, fun d hd e he hkinds => ?_⟩
    rcases List.mem_append.mp he with hspelling | hsyntax
    · exact hbehind d hd e (place_of_mem_diagnostics hspelling).2
    rcases Awaiting.place_of_mem_faults hsyntax with heq | ⟨kept, hafter, hsemicolon, hclassified⟩
    · exact hbehind d hd e heq
    · rw [isLexical_of_blames (Awaiting.respond_answers _ _).blames hsyntax, ne_eq,
        Bool.not_eq_false] at hkinds
      have hlexical : d ∈ (blamed .function xs).filter Diagnostic.isLexical :=
        List.mem_filter.mpr ⟨hd, hkinds⟩
      rw [(filter_blamed .function xs).1] at hlexical
      exact h.noLater_of_statement hrs hafter hsemicolon hlexical hclassified

/-- The spelling of a token is faulted before the statement it stands in. -/
theorem IsStatement.noLater {run : List Token} (h : IsStatement (tokenize file text) run)
    (horder : (compile file text).diagnostics.Pairwise fun d e => d.place.NoLater e.place)
    {d e : Diagnostic} (hd : d ∈ (classify (significant run)).faults)
    (he : e ∈ spellingFaults file text) (hin : ∃ t ∈ run, t.place = e.place) :
    e.place.NoLater d.place := by
  obtain ⟨rs, r, more, hrs, hrun, hds⟩ := h.recorded
  obtain ⟨t, ht, hplace⟩ := hin
  obtain ⟨q, hq, heq⟩ := List.mem_flatMap.mp he
  have hqplace : e.place = q.place := (place_of_mem_diagnostics heq).2
  obtain ⟨p, hp, rfl⟩ := List.mem_map.mp (hrun t ht)
  have hplaces := places_inOrder (reads_start file text)
  rw [hrs] at hplaces hq
  -- No other reading has the place of the one that makes the token.
  have hearly : q ∈ rs := by
    rcases List.mem_append.mp hq with hq | hlate
    · exact hq
    · have hbefore := (List.pairwise_append.mp hplaces).2.2 p hp q hlate
      exact (hbefore.ne (hplace.trans hqplace)).elim
  have hrecorded : e ∈ blamed .function rs := by
    have hlexical : e ∈ (blamed .function rs).filter Diagnostic.isLexical := by
      rw [(filter_blamed .function rs).1]
      exact List.mem_flatMap.mpr ⟨q, hearly, heq⟩
    exact List.mem_of_mem_filter hlexical
  rw [hds] at horder
  exact (List.pairwise_append.mp horder).2.2 e hrecorded d (by simp [hd])

end Text

/-- Diagnostics of both kinds together come in the order of the text exactly if every statement is
faulted last: its faults are recorded when its semicolon is read, and the spelling of each of its
tokens before. -/
theorem compile_diagnostics_noLater_iff (file text : String) :
    ((compile file text).diagnostics.Pairwise fun d e => d.place.NoLater e.place) ↔
      FaultedLast file text := by
  constructor
  · exact fun horder run hrun d hd e he hin => hrun.noLater horder hd he hin
  · intro h
    have hacross : (compile file text).diagnostics.Pairwise Diagnostic.Across :=
      h.across (List.append_nil _).symm
    obtain ⟨hlexical, hsyntactic⟩ := filter_diagnostics file text
    have hspelling := spellingFaults_noLater file text
    have horder := faults_inOrder file text
    rw [← hlexical, List.pairwise_filter] at hspelling
    rw [← hsyntactic, List.pairwise_filter] at horder
    refine (hacross.and (List.Pairwise.and hspelling horder)).imp fun {d e} hde => ?_
    obtain ⟨hkinds, hboth, hneither⟩ := hde
    cases hd : d.isLexical with
    | true =>
      cases he : e.isLexical with
      | true => exact hboth hd he
      | false => exact hkinds (by simp [hd, he])
    | false =>
      cases he : e.isLexical with
      | true => exact hkinds (by simp [hd, he])
      | false => exact (hneither (by simp [hd]) (by simp [he])).noLater

/-- The separator at the end of the number is faulted before the comma that is missing in front of
it. -/
theorem compile_diagnostics_separator_first :
    ¬ (compile "main.sls" "fun f() \x7b g(x y 1'); \x7d").diagnostics.Pairwise
      fun d e => d.place.NoLater e.place := by
  decide +kernel

end SlsLang
