import Mathlib.Data.List.Basic
import SlsLang.Proofs.Answer

namespace SlsLang

/-- Every one of the diagnostics blames one of the tokens. -/
def Blames (ts : List Token) (ds : List Diagnostic) : Prop := ∀ d ∈ ds, ∃ t ∈ ts, ∃ f, d = t.blame f

theorem Blames.mono {ts us : List Token} {ds : List Diagnostic} (h : Blames ts ds) (hs : ts ⊆ us) :
    Blames us ds := by
  intro d hd
  obtain ⟨t, ht, hf⟩ := h d hd
  exact ⟨t, hs ht, hf⟩

def blameAll (bs : List (Token × SyntaxFault)) : List Diagnostic := bs.map fun b => b.1.blame b.2

theorem blames_blameAll (bs : List (Token × SyntaxFault)) :
    Blames (bs.map Prod.fst) (blameAll bs) := by
  intro d hd
  obtain ⟨b, hb, rfl⟩ := List.mem_map.mp hd
  exact ⟨b.1, List.mem_map_of_mem hb, b.2, rfl⟩

/-- The diagnostics blame tokens of the row in its order, and none of them twice. -/
def BlamesInOrder (ts : List Token) (ds : List Diagnostic) : Prop :=
  ∃ bs, ds = blameAll bs ∧ (bs.map Prod.fst).Sublist ts

theorem blamesInOrder_nil (ts : List Token) : BlamesInOrder ts [] := ⟨[], rfl, List.nil_sublist ts⟩

theorem blamesInOrder_singleton (t : Token) (f : SyntaxFault) : BlamesInOrder [t] [t.blame f] :=
  ⟨[(t, f)], rfl, .refl [t]⟩

theorem BlamesInOrder.append {ts us : List Token} {ds es : List Diagnostic}
    (hd : BlamesInOrder ts ds) (he : BlamesInOrder us es) : BlamesInOrder (ts ++ us) (ds ++ es) := by
  obtain ⟨bs, rfl, hbs⟩ := hd
  obtain ⟨cs, rfl, hcs⟩ := he
  refine ⟨bs ++ cs, List.map_append.symm, ?_⟩
  rw [List.map_append]
  exact hbs.append hcs

theorem BlamesInOrder.mono {ts us : List Token} {ds : List Diagnostic} (h : BlamesInOrder ts ds)
    (hs : ts.Sublist us) : BlamesInOrder us ds := by
  obtain ⟨bs, hds, hbs⟩ := h
  exact ⟨bs, hds, hbs.trans hs⟩

theorem BlamesInOrder.places {ts : List Token} {ds : List Diagnostic} (h : BlamesInOrder ts ds) :
    (ds.map Diagnostic.place).Sublist (ts.map Token.place) := by
  obtain ⟨bs, rfl, hbs⟩ := h
  have hplaces := hbs.map Token.place
  rw [List.map_map] at hplaces
  rw [blameAll, List.map_map]
  exact hplaces

theorem BlamesInOrder.exists_place {ts : List Token} {ds : List Diagnostic}
    (h : BlamesInOrder ts ds) {d : Diagnostic} (hd : d ∈ ds) : ∃ t ∈ ts, t.place = d.place :=
  List.mem_map.mp (h.places.subset (List.mem_map_of_mem hd))

theorem calleePieces_blamesInOrder (dotDue : Bool) (ts : List Token) :
    BlamesInOrder ts (calleePieces dotDue ts).2 := by
  induction ts generalizing dotDue with
  | nil => exact blamesInOrder_nil _
  | cons t ts ih =>
    have hpassed : ∀ due, BlamesInOrder (t :: ts) (calleePieces due ts).2 := fun due =>
      (ih due).mono (List.sublist_cons_self t ts)
    have hblamed : ∀ due, BlamesInOrder (t :: ts)
        (t.blame .unexpectedPunctuation :: (calleePieces due ts).2) := fun due =>
      (blamesInOrder_singleton t _).append (ih due)
    simp only [calleePieces]
    split
    · cases dotDue with
      | true => exact hpassed false
      | false => exact hblamed false
    · cases dotDue with
      | true => exact hblamed _
      | false => exact hpassed _

theorem callArguments_blamesInOrder (ts : List Token) : BlamesInOrder ts (callArguments ts).2 := by
  fun_induction callArguments ts with
  | case1 => exact blamesInOrder_nil _
  | case2 t => exact blamesInOrder_nil _
  | case3 t comma ts value hc values faults heq ih =>
    rw [heq] at ih
    exact ih.mono ((List.sublist_cons_self comma ts).trans (List.sublist_cons_self t _))
  | case4 t comma ts value hc =>
    exact (blamesInOrder_singleton comma _).mono
      ((List.singleton_sublist.mpr List.mem_cons_self).cons t)

/-- The name of a call is faulted before its parentheses, and these before its last token. -/
theorem classifyCall_blamesInOrder (run : List Token) (last : Token) :
    BlamesInOrder (run ++ [last]) (classifyCall run last).faults := by
  have hpieces := calleePieces_blamesInOrder false (run.takeWhile (!·.isPunctuation "("))
  have hlast : ∀ f, BlamesInOrder (run ++ [last])
      ((calleePieces false (run.takeWhile (!·.isPunctuation "("))).2 ++ [last.blame f]) := fun f =>
    (hpieces.mono (List.takeWhile_sublist _)).append (blamesInOrder_singleton last f)
  have hrun : run.takeWhile (!·.isPunctuation "(") ++
      run.drop (run.takeWhile (!·.isPunctuation "(")).length = run :=
    List.prefix_iff_eq_append.mp (List.takeWhile_prefix _)
  simp only [classifyCall]
  split
  next => exact hlast _
  next open_ inside hd =>
    split
    next =>
      exact (blamesInOrder_singleton last _).mono (List.sublist_append_right run [last])
    next =>
      split
      · exact hlast _
      · have harguments := hpieces.append ((callArguments_blamesInOrder inside).mono
          (List.sublist_cons_self open_ inside))
        rw [← hd, hrun] at harguments
        exact harguments.mono (List.sublist_append_left run [last])

theorem classify_blamesInOrder (run : List Token) : BlamesInOrder run (classify run).faults := by
  unfold classify
  split
  next => exact blamesInOrder_nil _
  next t => exact blamesInOrder_singleton t _
  next =>
    split
    next => exact blamesInOrder_nil _
    next =>
      split
      next last hl =>
        split
        · have hcall := classifyCall_blamesInOrder run.dropLast last
          rwa [List.dropLast_append_getLast? last hl] at hcall
        · exact blamesInOrder_nil _
      next => exact blamesInOrder_nil _

namespace Awaiting

/-- What an answer blames stands before all that is kept after it, and both come from what was kept
and the token that is answered, in this order. -/
def Orders (a : Awaiting) (t : Token) (r : Response) : Prop :=
  ∃ bs, r.faults = blameAll bs ∧
    (bs.map Prod.fst ++ r.next.tokens.reverse).Sublist (a.tokens.reverse ++ [t])

theorem Answer.orders {a : Awaiting} {t : Token} {r : Response} (h : Answer a t r) :
    Orders a t r := by
  cases h with
  | skip => exact ⟨[], rfl, List.sublist_append_left a.tokens.reverse [t]⟩
  | pass _ kept => exact ⟨[], rfl, by rcases kept with kept | kept <;> simp [Response.pass, kept]⟩
  | refuse f _ kept => exact ⟨[(t, f)], rfl, by simp [Response.refuse, kept]⟩
  | accept completes => exact ⟨[], rfl, by simp [Response.accept, completes.kept]⟩
  | @classified run due =>
    subst due
    obtain ⟨bs, hbs, hrun⟩ := classify_blamesInOrder run.reverse
    refine ⟨bs, hbs, ?_⟩
    simpa [tokens] using hrun.trans (List.sublist_append_left run.reverse [t])

/-- An answer blames the token it answers or one kept, and only these are kept after it. -/
structure Answers (a : Awaiting) (t : Token) (r : Response) : Prop where
  blames : Blames (t :: a.tokens) r.faults
  keeps : r.next.tokens ⊆ t :: a.tokens

theorem Orders.answers {a : Awaiting} {t : Token} {r : Response} (h : Orders a t r) :
    Answers a t r := by
  obtain ⟨bs, hbs, hsublist⟩ := h
  have hsubset : bs.map Prod.fst ++ r.next.tokens.reverse ⊆ t :: a.tokens := by
    intro u hu
    simpa [or_comm] using hsublist.subset hu
  obtain ⟨hblamed, hkept⟩ := List.append_subset.mp hsubset
  refine ⟨?_, fun u hu => hkept (List.mem_reverse.mpr hu)⟩
  rw [hbs]
  exact (blames_blameAll bs).mono hblamed

theorem respond_answers (a : Awaiting) (t : Token) : Answers a t (a.respond t) :=
  (a.answer_respond t).orders.answers

theorem responses_blame (a : Awaiting) (ts : List Token) :
    ∀ r ∈ a.responses ts, Blames (a.tokens ++ ts) r.faults := by
  induction ts generalizing a with
  | nil => simp [responses_nil]
  | cons t ts ih =>
    intro r hr
    rw [responses_cons] at hr
    have h := respond_answers a t
    have hhead : t :: a.tokens ⊆ a.tokens ++ t :: ts := by
      intro u hu
      rcases List.mem_cons.mp hu with rfl | hu <;> simp [*]
    rcases List.mem_cons.mp hr with rfl | hr
    · exact h.blames.mono hhead
    · refine (ih _ r hr).mono (List.append_subset.mpr ⟨?_, ?_⟩)
      · exact List.Subset.trans h.keeps hhead
      · intro u hu
        simp [hu]

end Awaiting

/-- A diagnostic of a recognition is one of a reading, or it blames the token of a reading. -/
theorem mem_recognize_diagnostics {readings : List Reading} {d : Diagnostic}
    (h : d ∈ (recognize readings).diagnostics) :
    (∃ r ∈ readings, d ∈ r.diagnostics) ∨ ∃ t ∈ readings.map Reading.token, ∃ f, d = t.blame f := by
  obtain ⟨ds, hds, hd⟩ := List.mem_flatten.mp h
  rw [← List.map_uncurry_zip_eq_zipWith] at hds
  obtain ⟨⟨r, response⟩, hz, rfl⟩ := List.mem_map.mp hds
  obtain ⟨hr, hresponse⟩ := List.of_mem_zip hz
  rcases List.mem_append.mp hd with hd | hd
  · exact .inl ⟨r, hr, hd⟩
  · exact .inr (Awaiting.responses_blame _ _ response hresponse d hd)

end SlsLang
