import SlsLang.Proofs.ReadBack
import SlsLang.Proofs.StatementGrammar

namespace SlsLang

section Shapes

theorem spells_of_ofShape? {run : List Token} {s : Statement}
    (h : Statement.ofShape? run = some s) : Spells run s := by
  unfold Statement.ofShape? at h
  split at h
  next target equals value =>
    split at h
    next hall =>
      cases h
      simp only [Bool.and_eq_true] at hall
      obtain ⟨⟨htarget, hequals⟩, hvalue⟩ := hall
      exact .assignment htarget hequals hvalue
    next => simp at h
  next var name colon type =>
    split at h
    next hall =>
      cases h
      simp only [Statement.isDeclaration, Bool.and_eq_true] at hall
      obtain ⟨⟨⟨hvar, hname⟩, hcolon⟩, htype⟩ := hall
      exact .declaration hvar hname hcolon htype
    next => simp at h
  next var name colon type equals value =>
    split at h
    next hall =>
      cases h
      simp only [Statement.isDeclaration, Bool.and_eq_true] at hall
      obtain ⟨⟨⟨⟨⟨hvar, hname⟩, hcolon⟩, htype⟩, hequals⟩, hvalue⟩ := hall
      exact .initialized hvar hname hcolon htype hequals hvalue
    next => simp at h
  next => simp at h

/-- A statement of a fixed shape ends in a name or a value, which no mark is. -/
theorem ofShape?_eq_none_of_last {run : List Token} {last : Token} {text : String}
    (hl : run.getLast? = some last) (hp : last.isPunctuation text = true) :
    Statement.ofShape? run = none := by
  have hvalue : last.isValue = false := by
    cases hv : last.isValue with
    | false => rfl
    | true => simp [Token.not_isPunctuation_of_isValue hv text] at hp
  have hname := Token.not_isIdentifier_of_isPunctuation hp
  unfold Statement.ofShape?
  split
  next =>
    obtain rfl : _ = last := by simpa using hl
    simp [hvalue]
  next =>
    obtain rfl : _ = last := by simpa using hl
    simp [Statement.isDeclaration, hname]
  next =>
    obtain rfl : _ = last := by simpa using hl
    simp [hvalue]
  next => rfl

end Shapes

section Calls

theorem classify_of_no_shape {t u last : Token} {ts : List Token}
    (hs : Statement.ofShape? (t :: u :: ts) = none) (hl : (t :: u :: ts).getLast? = some last)
    (hp : last.isPunctuation ")" = true) :
    classify (t :: u :: ts) = classifyCall (t :: u :: ts).dropLast last := by
  rw [classify]
  · simp only [hs, hl, if_pos hp]
  all_goals simp

/-- A run of tokens in which no fault is found when it is read as a call. Dots stand where they are
due and commas where they are due, but where a name is due any token may stand that is no dot, and
where a value is due any token. -/
structure ReadsAsCall (callee inside slots run : List Token) (s : Statement) : Prop where
  parts : ∃ opening closing : Token, opening.isPunctuation "(" = true ∧
    closing.isPunctuation ")" = true ∧ run = callee ++ opening :: (inside ++ [closing])
  noOpening : ∀ t ∈ callee, t.isPunctuation "(" = false
  dots : DotsDue false callee
  commas : Slots inside slots
  closed : run.countP (·.isPunctuation "(") ≤ run.countP (·.isPunctuation ")")
  fields : ∃ head, callee.head? = some head ∧
    s = .call head (calleeText callee) (slots.filter Token.isValue)

theorem takeWhile_callee {callee ts : List Token} {opening : Token}
    (h : ∀ t ∈ callee, t.isPunctuation "(" = false) (ho : opening.isPunctuation "(" = true) :
    (callee ++ opening :: ts).takeWhile (!·.isPunctuation "(") = callee := by
  apply takeWhile_append_of_stop
  · intro t ht
    simp [h t ht]
  · simp [ho]

/-- The parts of a call are settled by its tokens. -/
theorem ReadsAsCall.unique {callee inside slots callee' inside' slots' run : List Token}
    {s s' : Statement} (h : ReadsAsCall callee inside slots run s)
    (h' : ReadsAsCall callee' inside' slots' run s') :
    callee = callee' ∧ inside = inside' ∧ slots = slots' := by
  obtain ⟨opening, closing, ho, -, hrun⟩ := h.parts
  obtain ⟨opening', closing', ho', -, hrun'⟩ := h'.parts
  have hcallee : callee = callee' := by
    rw [← takeWhile_callee h.noOpening ho, ← takeWhile_callee h'.noOpening ho', ← hrun, ← hrun']
  subst hcallee
  rw [hrun] at hrun'
  obtain ⟨-, hinside⟩ := List.cons.inj (List.append_cancel_left hrun')
  obtain ⟨rfl, -⟩ := List.append_inj' hinside rfl
  exact ⟨rfl, rfl, h.commas.unique h'.commas⟩

theorem ReadsAsCall.ofShape?_eq_none {callee inside slots run : List Token} {s : Statement}
    (h : ReadsAsCall callee inside slots run s) : Statement.ofShape? run = none := by
  obtain ⟨opening, closing, -, hc, hrun⟩ := h.parts
  have hlast : run.getLast? = some closing := by
    rw [hrun, ← List.cons_append, ← List.append_assoc, List.getLast?_concat]
  exact ofShape?_eq_none_of_last hlast hc

theorem closed_concat_iff {run : List Token} {last : Token}
    (hp : last.isPunctuation ")" = true) :
    (run ++ [last]).countP (·.isPunctuation "(") ≤ (run ++ [last]).countP (·.isPunctuation ")") ↔
      ¬ run.countP (·.isPunctuation ")") + 1 < run.countP (·.isPunctuation "(") := by
  have hl : last.isPunctuation "(" = false := Token.not_isPunctuation_of_ne hp (by decide)
  simp only [List.countP_append, List.countP_singleton, hl, hp, Bool.false_eq_true, if_false,
    if_true]
  omega

theorem ReadsAsCall.classify {callee inside slots run : List Token} {s : Statement}
    (h : ReadsAsCall callee inside slots run s) : classify run = ⟨some s, []⟩ := by
  obtain ⟨opening, closing, ho, hc, hrun⟩ := h.parts
  obtain ⟨head, hhead, rfl⟩ := h.fields
  obtain ⟨names, rfl⟩ : ∃ names, callee = head :: names := by
    cases callee with
    | nil => simp at hhead
    | cons t ts => exact ⟨ts, by simpa using hhead⟩
  have hclosed := h.closed
  have hshape := h.ofShape?_eq_none
  have hassoc : head :: names ++ opening :: (inside ++ [closing]) =
      head :: names ++ opening :: inside ++ [closing] := by simp
  rw [hassoc] at hrun
  have hlast : run.getLast? = some closing := by rw [hrun, List.getLast?_concat]
  obtain ⟨u, ts, hcons⟩ : ∃ u ts, run = head :: u :: ts := by
    rw [hrun]
    cases names <;> exact ⟨_, _, rfl⟩
  have hfaults := (calleePieces_eq_iff false (head :: names)).mpr h.dots
  have hpieces := calleePieces_of_dotsDue h.dots
  rw [hrun, closed_concat_iff hc] at hclosed
  rw [hcons] at hshape hlast
  rw [hcons, classify_of_no_shape hshape hlast hc, ← hcons, hrun, List.dropLast_concat]
  simp only [classifyCall, takeWhile_callee h.noOpening ho, List.drop_left, if_neg hclosed,
    h.commas.callArguments_eq, hfaults, hpieces]
  rfl

theorem exists_split_at_opening {run : List Token} (h : ∃ t ∈ run, t.isPunctuation "(" = true) :
    ∃ callee opening inside, run = callee ++ opening :: inside ∧
      opening.isPunctuation "(" = true ∧ ∀ t ∈ callee, t.isPunctuation "(" = false := by
  obtain ⟨t, ht, ho⟩ := h
  induction run with
  | nil => simp at ht
  | cons u run ih =>
    cases hu : u.isPunctuation "(" with
    | true => exact ⟨[], u, run, rfl, hu, by simp⟩
    | false =>
      have htail : t ∈ run := by
        rcases List.mem_cons.mp ht with rfl | ht
        · simp [hu] at ho
        · exact ht
      obtain ⟨callee, opening, inside, rfl, hopening, hno⟩ := ih htail
      exact ⟨u :: callee, opening, inside, rfl, hopening, List.forall_mem_cons.mpr ⟨hu, hno⟩⟩

theorem exists_opening_of_classifyCall {run : List Token} {last : Token} {s : Statement}
    (h : classifyCall run last = ⟨some s, []⟩) : ∃ t ∈ run, t.isPunctuation "(" = true := by
  by_contra hno
  have hall : ∀ t ∈ run, (!t.isPunctuation "(") = true := by
    intro t ht
    simpa using fun ho => hno ⟨t, ht, ho⟩
  have htake : run.takeWhile (!·.isPunctuation "(") = run := List.takeWhile_eq_self_iff.mpr hall
  simp [classifyCall, htake] at h

/-- Only where it reads as a call is a run accepted as one with no fault. -/
theorem exists_readsAsCall {run : List Token} {last : Token} {s : Statement}
    (hp : last.isPunctuation ")" = true) (h : classifyCall run last = ⟨some s, []⟩) :
    ∃ callee inside slots, ReadsAsCall callee inside slots (run ++ [last]) s := by
  obtain ⟨callee, opening, inside, rfl, ho, hno⟩ :=
    exists_split_at_opening (exists_opening_of_classifyCall h)
  simp only [classifyCall, takeWhile_callee hno ho, List.drop_left] at h
  cases callee with
  | nil => simp at h
  | cons head names =>
    simp only at h
    split at h
    next => simp at h
    next hfew =>
      simp only [Classified.mk.injEq, Option.some.injEq, List.append_eq_nil_iff] at h
      obtain ⟨rfl, hcallee, harguments⟩ := h
      obtain ⟨slots, hslots⟩ := exists_slots_of_callArguments harguments
      have hdots := (calleePieces_eq_iff false (head :: names)).mp hcallee
      refine ⟨head :: names, inside, slots, ⟨opening, last, ho, hp, by simp⟩, hno, hdots, hslots,
        (closed_concat_iff hp).mpr hfew, head, rfl, ?_⟩
      rw [calleePieces_of_dotsDue hdots, hslots.callArguments_eq]
      rfl

end Calls

section Acceptance

theorem ReadsAsCall.spells {callee inside slots run : List Token} {s : Statement}
    (h : ReadsAsCall callee inside slots run s) (hcallee : WholeCallee callee)
    (hinside : WholeArguments inside slots) : Spells run s := by
  obtain ⟨opening, closing, ho, hc, rfl⟩ := h.parts
  obtain ⟨head, hhead, rfl⟩ := h.fields
  have hne : callee ≠ [] := by
    rintro rfl
    simp at hhead
  obtain ⟨names, hnames⟩ := exists_separated_of_dotsDue hne h.dots hcallee
  have hfields := List.filter_eq_self.mpr hinside.1
  have hvalues := arguments_iff.mpr ⟨h.commas, hinside⟩
  obtain ⟨others, rfl⟩ : ∃ others, names = head :: others := by
    cases hnames <;> exact ⟨_, by rw [Option.some.inj hhead]⟩
  rw [hnames.calleeText, hfields]
  exact .call hnames ho hvalues hc

/-- No parenthesis is opened among values and other marks. -/
theorem Separated.not_opening {item : Token → Bool} {mark : String} {ts items : List Token}
    (h : Separated item mark ts items) (hitem : ∀ t, item t = true → t.isValue = true)
    (hmark : mark ≠ "(") : ∀ t ∈ ts, t.isPunctuation "(" = false := by
  intro t ht
  rcases h.item_or_mark t ht with hi | hm
  · exact Token.not_isPunctuation_of_isValue (hitem t hi) "("
  · exact Token.not_isPunctuation_of_ne hm hmark

theorem readsAsCall_of_separated {callee names inside arguments : List Token}
    {head opening closing : Token}
    (hcallee : Separated Token.isIdentifier "." callee (head :: names))
    (ho : opening.isPunctuation "(" = true)
    (hinside : inside = [] ∧ arguments = [] ∨ Separated Token.isValue "," inside arguments)
    (hc : closing.isPunctuation ")" = true) :
    ReadsAsCall callee inside arguments (callee ++ opening :: (inside ++ [closing]))
      (.call head (".".intercalate ((head :: names).map Token.text)) arguments) := by
  obtain ⟨hslots, hwhole⟩ := arguments_iff.mp hinside
  have hno := hcallee.not_opening (fun _ => Token.isValue_of_isIdentifier) (by decide)
  have hnone : ∀ t ∈ inside, t.isPunctuation "(" = false := by
    rcases hinside with ⟨rfl, -⟩ | hvalues
    · simp
    · exact hvalues.not_opening (fun _ ht => ht) (by decide)
  have hclosing : closing.isPunctuation "(" = false := Token.not_isPunctuation_of_ne hc (by decide)
  refine ⟨⟨opening, closing, ho, hc, rfl⟩, hno, hcallee.dotsDue, hslots, ?_, head, ?_, ?_⟩
  · -- One parenthesis is opened, and the last token closes one.
    have hzero : ∀ ts : List Token, (∀ t ∈ ts, t.isPunctuation "(" = false) →
        ts.countP (·.isPunctuation "(") = 0 := by
      intro ts hts
      rw [List.countP_eq_zero]
      intro t ht
      simp [hts t ht]
    simp only [List.countP_append, List.countP_cons, List.countP_nil, hzero _ hno, hzero _ hnone,
      ho, hclosing, hc, Bool.false_eq_true, if_false, if_true]
    omega
  · cases hcallee <;> rfl
  · rw [hcallee.calleeText, List.filter_eq_self.mpr hwhole.1]

theorem Spells.shape_or_call {run : List Token} {s : Statement} (h : Spells run s) :
    Statement.ofShape? run = some s ∨ ∃ callee inside slots,
      ReadsAsCall callee inside slots run s ∧ WholeCallee callee ∧ WholeArguments inside slots := by
  cases h with
  | declaration isVar isName isColon isType =>
    simp [Statement.ofShape?, Statement.isDeclaration, isVar, isName, isColon, isType]
  | initialized isVar isName isColon isType isEquals isValue =>
    simp [Statement.ofShape?, Statement.isDeclaration, isVar, isName, isColon, isType, isEquals,
      isValue]
  | assignment isTarget isEquals isValue =>
    simp [Statement.ofShape?, isTarget, isEquals, isValue]
  | call isCallee isOpening isInside isClosing =>
    have hreads := readsAsCall_of_separated isCallee isOpening isInside isClosing
    exact .inr ⟨_, _, _, hreads, isCallee.wholeCallee, (arguments_iff.mp isInside).2⟩

theorem classify_of_shape {run : List Token} {s : Statement}
    (h : Statement.ofShape? run = some s) : classify run = ⟨some s, []⟩ := by
  match run with
  | [] => simp [Statement.ofShape?] at h
  | [t] => simp [Statement.ofShape?] at h
  | t :: u :: ts =>
    rw [classify]
    · simp only [h]
    all_goals simp

theorem Spells.classify {run : List Token} {s : Statement} (h : Spells run s) :
    classify run = ⟨some s, []⟩ := by
  rcases h.shape_or_call with hshape | ⟨callee, inside, slots, hreads, -⟩
  · exact classify_of_shape hshape
  · exact hreads.classify

/-- Only a fixed shape and what reads as a call are accepted in silence. -/
theorem classify_eq_some_iff {run : List Token} {s : Statement} :
    classify run = ⟨some s, []⟩ ↔ Statement.ofShape? run = some s ∨
      ∃ callee inside slots, ReadsAsCall callee inside slots run s := by
  constructor
  · intro h
    match run with
    | [] => simp [classify] at h
    | [t] => simp [classify] at h
    | t :: u :: ts =>
      cases hs : Statement.ofShape? (t :: u :: ts) with
      | some s' =>
        rw [classify_of_shape hs] at h
        cases h
        exact .inl rfl
      | none =>
        have hlast : (t :: u :: ts).getLast? = some ((t :: u :: ts).getLast (by simp)) :=
          List.getLast?_eq_some_getLast _
        cases hp : ((t :: u :: ts).getLast (by simp)).isPunctuation ")" with
        | true =>
          rw [classify_of_no_shape hs hlast hp] at h
          have hreads := exists_readsAsCall hp h
          rw [List.dropLast_append_getLast] at hreads
          exact .inr hreads
        | false =>
          rw [classify] at h
          · simp only [hs, hlast, hp] at h
            simp at h
          all_goals simp
  · rintro (h | ⟨callee, inside, slots, h⟩)
    · exact classify_of_shape h
    · exact h.classify

/-- A run that reads as a call though the grammar asks for more: a token other than a name or a dot
stands in its name, or its name ends in a dot, or a slot has no value, or the arguments end in a
comma. -/
def CallWithGap (run : List Token) (s : Statement) : Prop :=
  ∃ callee inside slots, ReadsAsCall callee inside slots run s ∧
    ¬ (WholeCallee callee ∧ WholeArguments inside slots)

theorem Spells.not_callWithGap {run : List Token} {s s' : Statement} (h : Spells run s) :
    ¬ CallWithGap run s' := by
  rintro ⟨callee, inside, slots, hreads, hgap⟩
  rcases h.shape_or_call with hshape | ⟨callee', inside', slots', hreads', hwhole⟩
  · simp [hreads.ofShape?_eq_none] at hshape
  · obtain ⟨rfl, rfl, rfl⟩ := hreads.unique hreads'
    exact hgap hwhole

/-- A run of tokens is accepted in silence exactly if it is written as the grammar asks or is a call
with a gap, and is made the statement it spells. So the grammar is what is accepted for just the runs
that are no call with a gap. -/
theorem classify_accepts_grammar (run : List Token) :
    (∀ s, classify run = ⟨some s, []⟩ ↔ Spells run s ∨ CallWithGap run s) ∧
      ((∀ s, classify run = ⟨some s, []⟩ ↔ Spells run s) ↔ ∀ s, ¬ CallWithGap run s) := by
  have haccepts : ∀ s, classify run = ⟨some s, []⟩ ↔ Spells run s ∨ CallWithGap run s := by
    intro s
    constructor
    · intro h
      rcases classify_eq_some_iff.mp h with hshape | ⟨callee, inside, slots, hreads⟩
      · exact .inl (spells_of_ofShape? hshape)
      · by_cases hwhole : WholeCallee callee ∧ WholeArguments inside slots
        · exact .inl (hreads.spells hwhole.1 hwhole.2)
        · exact .inr ⟨callee, inside, slots, hreads, hwhole⟩
    · rintro (hspells | ⟨callee, inside, slots, hreads, -⟩)
      · exact hspells.classify
      · exact hreads.classify
  refine ⟨haccepts, fun h s hgap => ?_, fun h s => ?_⟩
  · have hspells := (h s).mp ((haccepts s).mpr (.inr hgap))
    exact hspells.not_callWithGap hgap
  · rw [haccepts s]
    exact or_iff_left (h s)

def strayNumberPlace (column : Nat) : Place := ⟨"main.sls", 1, column, "a.1 b()"⟩

/-- The tokens of `a.1 b()`. -/
def strayNumberCall : List Token :=
  [⟨.identifier, "a", strayNumberPlace 1⟩, ⟨.punctuation, ".", strayNumberPlace 2⟩,
    ⟨.int32, "1", strayNumberPlace 3⟩, ⟨.identifier, "b", strayNumberPlace 5⟩,
    ⟨.punctuation, "(", strayNumberPlace 6⟩, ⟨.punctuation, ")", strayNumberPlace 7⟩]

/-- The number is passed over in silence, and `a.b` is called. -/
theorem classify_strayNumberCall :
    classify strayNumberCall =
        ⟨some (.call ⟨.identifier, "a", strayNumberPlace 1⟩ "a.b" []), []⟩ ∧
      ∀ s, ¬ Spells strayNumberCall s := by
  have hreads : ReadsAsCall (strayNumberCall.take 4) [] [] strayNumberCall
      (.call ⟨.identifier, "a", strayNumberPlace 1⟩ "a.b" []) :=
    { parts := ⟨_, _, rfl, rfl, rfl⟩
      noOpening := by decide
      dots := by unfold DotsDue; decide
      commas := .nil
      closed := by decide
      fields := ⟨_, rfl, by decide⟩ }
  refine ⟨hreads.classify, fun s hs => hs.not_callWithGap ⟨_, _, _, hreads, ?_⟩⟩
  rintro ⟨⟨hall, -⟩, -⟩
  revert hall
  decide

end Acceptance

end SlsLang
