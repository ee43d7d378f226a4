import SlsLang.Compilation
import SlsLang.Proofs.SignificantTokens
import SlsLang.Proofs.SourceOrder

namespace SlsLang

namespace Awaiting

/-- Whatever is due, a row of tokens is blamed in its order, behind the tokens that are kept. -/
theorem faults_blamesInOrder (a : Awaiting) (ts : List Token) :
    BlamesInOrder (a.tokens.reverse ++ ts) (a.faults ts) := by
  induction ts generalizing a with
  | nil => exact blamesInOrder_nil _
  | cons t ts ih =>
    -- The later faults fall on the tokens kept behind this answer and on those still to come.
    obtain ⟨bs, hbs, hhead⟩ := (a.answer_respond t).orders
    obtain ⟨cs, hcs, htail⟩ := ih (a.respond t).next
    refine ⟨bs ++ cs, ?_, ?_⟩
    · rw [faults_cons, hbs, hcs]
      exact List.map_append.symm
    · have hall := ((List.Sublist.refl (bs.map Prod.fst)).append htail).trans
        (by simpa using hhead.append (.refl ts))
      simpa using hall

end Awaiting

namespace Place

/-- On an earlier line, or no further to the right on the same line. -/
def NoLater (p q : Place) : Prop := p.line < q.line ∨ p.line = q.line ∧ p.column ≤ q.column

instance (p q : Place) : Decidable (p.NoLater q) := inferInstanceAs (Decidable (_ ∨ _))

theorem noLater_refl (p : Place) : p.NoLater p := .inr ⟨rfl, Nat.le_refl _⟩

theorem Before.noLater {p q : Place} (h : p.Before q) : p.NoLater q := by
  rcases h with h | ⟨hline, hcolumn⟩
  · exact .inl h
  · exact .inr ⟨hline, Nat.le_of_lt hcolumn⟩

theorem Before.ne {p q : Place} (h : p.Before q) : p ≠ q := by
  rintro rfl
  rcases h with h | ⟨_, h⟩ <;> exact Nat.lt_irrefl _ h

end Place

/-- The diagnostics of a text, those of the spelling of its tokens and those of their order. -/
theorem filter_diagnostics (file text : String) :
    (compile file text).diagnostics.filter Diagnostic.isLexical = spellingFaults file text ∧
      (compile file text).diagnostics.filter (!·.isLexical) =
        Awaiting.function.faults (tokenize file text) :=
  filter_blamed .function (Lexer.start file text).readings

theorem spellingFaults_noLater (file text : String) :
    (spellingFaults file text).Pairwise fun d e => d.place.NoLater e.place := by
  refine List.pairwise_flatMap.mpr ⟨fun r _ => ?_, ?_⟩
  · exact List.pairwise_map.mpr (List.pairwise_of_forall fun _ _ => r.place.noLater_refl)
  · refine (places_inOrder (reads_start file text)).imp fun hbefore d hd e he => ?_
    obtain ⟨_, _, rfl⟩ := List.mem_map.mp hd
    obtain ⟨_, _, rfl⟩ := List.mem_map.mp he
    exact hbefore.noLater

theorem faults_inOrder (file text : String) :
    (Awaiting.function.faults (tokenize file text)).Pairwise fun d e => d.place.Before e.place :=
  List.pairwise_map.mp ((List.pairwise_map.mpr (tokens_inOrder file text)).sublist
    (Awaiting.function.faults_blamesInOrder (tokenize file text)).places)

/-- All that is wrong with the order of tokens is recorded in the order of the text, and no token is
blamed twice, the end of the text included. All that is wrong with their spelling is recorded in the
order of the text as well. -/
theorem compile_diagnostics_inOrder (file text : String) :
    let ds := (compile file text).diagnostics
    let syntactic := ds.filter (!·.isLexical)
    syntactic.Pairwise (fun d e => d.place.Before e.place) ∧
    (∀ t ∈ tokenize file text, syntactic.countP (·.place == t.place) ≤ 1) ∧
    (ds.filter Diagnostic.isLexical).Pairwise fun d e => d.place.NoLater e.place := by
  intro ds syntactic
  have hsyntactic : syntactic = Awaiting.function.faults (tokenize file text) :=
    (filter_blamed .function (Lexer.start file text).readings).2
  have hlexical : ds.filter Diagnostic.isLexical = spellingFaults file text :=
    (filter_blamed .function (Lexer.start file text).readings).1
  have hplaces : (syntactic.map Diagnostic.place).Pairwise Place.Before := by
    rw [hsyntactic]
    exact (List.pairwise_map.mpr (tokens_inOrder file text)).sublist
      (Awaiting.function.faults_blamesInOrder (tokenize file text)).places
  refine ⟨List.pairwise_map.mp hplaces, ?_, ?_⟩
  · intro t _
    have hnodup : (syntactic.map Diagnostic.place).Nodup := hplaces.imp Place.Before.ne
    have hcount := List.nodup_iff_count.mp hnodup t.place
    rwa [List.count, List.countP_map] at hcount
  · rw [hlexical]
    exact spellingFaults_noLater file text

end SlsLang
