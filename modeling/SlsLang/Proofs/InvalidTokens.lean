import Mathlib.Data.List.Nodup
import SlsLang.Proofs.AcceptedStatements
import SlsLang.Proofs.EndOfInput
import SlsLang.Proofs.RecordingOrder

namespace SlsLang

/-- Two tokens or more that are no statement and do not end as a call does. -/
structure Formless (run : List Token) : Prop where
  long : 2 ≤ run.length
  noForm : ∀ s, ¬ Spells run s
  noClosing : ∀ t ∈ run.getLast?, t.isPunctuation ")" = false

/-- The token stands in a run where it is faulted whatever it is, unless it is a dot or a comma: by
itself, behind a name of what a call starts with, or where the arguments of a call first miss a
comma. -/
inductive OutOfPlace (t : Token) : List Token → Prop
  | alone : OutOfPlace t [t]
  | inName {before after : List Token} {name closing : Token}
    (noOpening : ∀ u ∈ before, u.isPunctuation "(" = false) (isName : name.isIdentifier = true)
    (isClosing : closing.isPunctuation ")" = true) :
    OutOfPlace t (before ++ name :: t :: (after ++ [closing]))
  | inArguments {callee earlier slots later : List Token} {opening closing : Token}
    (isCallee : callee ≠ []) (noOpening : ∀ u ∈ callee, u.isPunctuation "(" = false)
    (isOpening : opening.isPunctuation "(" = true) (commas : Slots earlier slots)
    (commaDue : earlier.length % 2 = 1) (isClosing : closing.isPunctuation ")" = true)
    (closed : (callee ++ opening :: (earlier ++ t :: (later ++ [closing]))).countP
        (·.isPunctuation "(") ≤
      (callee ++ opening :: (earlier ++ t :: (later ++ [closing]))).countP (·.isPunctuation ")")) :
    OutOfPlace t (callee ++ opening :: (earlier ++ t :: (later ++ [closing])))

theorem Token.of_invalid {t : Token} (h : t.kind = .invalid) :
    t.isEndOfFile = false ∧ t.isComment = false ∧ t.isIdentifier = false ∧ t.isValue = false ∧
      (∀ text, t.isPunctuation text = false) ∧ (∀ text, t.isKeyword text = false) ∧
      ∀ text, t.isOperator text = false := by
  simp [isEndOfFile, isComment, isIdentifier, isValue, isPunctuation, isKeyword, isOperator,
    TokenKind.isConstant, h]

section Statements

theorem Separated.not_invalid {item : Token → Bool} {mark : String} {ts items : List Token}
    (h : Separated item mark ts items) (hitem : ∀ t, item t = true → t.isValue = true) :
    ∀ t ∈ ts, t.kind ≠ .invalid := by
  intro t ht hk
  obtain ⟨-, -, -, hvalue, hmark, -, -⟩ := Token.of_invalid hk
  rcases h.item_or_mark t ht with hi | hm
  · simp [hitem t hi] at hvalue
  · simp [hmark] at hm

/-- No statement of the grammar has an invalid token. -/
theorem Spells.not_invalid {run : List Token} {s : Statement} (h : Spells run s) :
    ∀ t ∈ run, t.kind ≠ .invalid := by
  intro t ht hk
  obtain ⟨-, -, hname, hvalue, hmark, hword, hoperator⟩ := Token.of_invalid hk
  cases h with
  | declaration isVar isName isColon isType =>
    simp only [List.mem_cons, List.not_mem_nil, or_false] at ht
    rcases ht with rfl | rfl | rfl | rfl <;> simp_all
  | initialized isVar isName isColon isType isEquals isValue =>
    simp only [List.mem_cons, List.not_mem_nil, or_false] at ht
    rcases ht with rfl | rfl | rfl | rfl | rfl | rfl <;> simp_all
  | assignment isTarget isEquals isValue =>
    simp only [List.mem_cons, List.not_mem_nil, or_false] at ht
    rcases ht with rfl | rfl | rfl <;> simp_all
  | call isCallee isOpening isInside isClosing =>
    simp only [List.mem_append, List.mem_cons, List.not_mem_nil, or_false] at ht
    rcases ht with hcallee | rfl | hinside | rfl
    · exact isCallee.not_invalid (fun _ => Token.isValue_of_isIdentifier) t hcallee hk
    · simp [hmark] at isOpening
    · rcases isInside with ⟨rfl, -⟩ | hvalues
      · simp at hinside
      · exact hvalues.not_invalid (fun _ h => h) t hinside hk
    · simp [hmark] at isClosing

/-- What is read as a call and is none is faulted. -/
theorem classifyCall_ne_none (run : List Token) (last : Token) :
    classifyCall run last ≠ ⟨none, []⟩ := by
  simp only [classifyCall]
  split
  · simp
  · split
    · simp
    · split <;> simp

/-- Runs of no form are the ones that are passed over in silence. -/
theorem classify_eq_none_iff {run : List Token} :
    classify run = ⟨none, []⟩ ↔ run = [] ∨ Formless run := by
  match run with
  | [] => simp [classify]
  | [t] =>
    refine iff_of_false (by simp [classify]) ?_
    rintro (h | h)
    · simp at h
    · exact absurd h.long (by simp)
  | t :: u :: ts =>
    have hlast : (t :: u :: ts).getLast? = some ((t :: u :: ts).getLast (by simp)) :=
      List.getLast?_eq_some_getLast _
    constructor
    · intro h
      refine .inr ⟨by simp, fun s hs => ?_, fun v hv => ?_⟩
      · rw [hs.classify] at h
        simp at h
      · cases hp : v.isPunctuation ")" with
        | false => rfl
        | true =>
          rw [classify_of_no_shape (ofShape?_eq_none_of_last hv hp) hv hp] at h
          exact (classifyCall_ne_none _ _ h).elim
    · rintro (h | h)
      · simp at h
      have hshape : Statement.ofShape? (t :: u :: ts) = none := by
        rw [Option.eq_none_iff_forall_ne_some]
        exact fun s hs => h.noForm s (spells_of_ofShape? hs)
      have hclosing := h.noClosing _ hlast
      rw [classify]
      · simp only [hshape, hlast, hclosing]
        simp
      all_goals simp

/-- If a run with an invalid token is not faulted, it has no form or is a call with a gap. -/
theorem formless_or_callWithGap {run : List Token} (hfaults : (classify run).faults = [])
    {t : Token} (ht : t ∈ run) (hk : t.kind = .invalid) :
    Formless run ∨ ∃ s, CallWithGap run s := by
  have hnoForm : ∀ s, ¬ Spells run s := fun s hs => hs.not_invalid t ht hk
  have hclassify : classify run = ⟨(classify run).statement?, []⟩ := by rw [← hfaults]
  cases hs : (classify run).statement? with
  | none =>
    rw [hs] at hclassify
    rcases classify_eq_none_iff.mp hclassify with rfl | hformless
    · simp at ht
    · exact .inl hformless
  | some s =>
    rw [hs] at hclassify
    rcases classify_eq_some_iff.mp hclassify with hshape | ⟨callee, inside, slots, hreads⟩
    · exact (hnoForm s (spells_of_ofShape? hshape)).elim
    · exact .inr ⟨s, callee, inside, slots, hreads, fun hwhole =>
        hnoForm s (hreads.spells hwhole.1 hwhole.2)⟩

/-- Behind a name of a dotted name only a dot is not faulted. -/
theorem blame_mem_calleePieces (before after : List Token) {name t : Token}
    (hname : name.isIdentifier = true) (ht : t.isPunctuation "." = false) (dotDue : Bool) :
    t.blame .unexpectedPunctuation ∈ (calleePieces dotDue (before ++ name :: t :: after)).2 := by
  induction before generalizing dotDue with
  | nil =>
    have hdot := Token.not_isPunctuation_of_isValue (Token.isValue_of_isIdentifier hname) "."
    cases dotDue <;> simp [calleePieces, hdot, hname, ht]
  | cons u before ih =>
    rw [List.cons_append, calleePieces]
    split_ifs <;> simp [ih]

/-- Among the arguments of a call the first token that misses a comma is faulted. -/
theorem blame_mem_callArguments {earlier slots later : List Token} {t : Token}
    (h : Slots earlier slots) (hodd : earlier.length % 2 = 1) (ht : t.isPunctuation "," = false) :
    t.blame .expectedComma ∈ (callArguments (earlier ++ t :: later)).2 := by
  induction h with
  | nil => simp at hodd
  | last u => simp [callArguments, ht]
  | more u isComma rest ih =>
    simp only [List.length_cons] at hodd
    simp [callArguments, isComma, ih (by omega)]

theorem calleePieces_subset_classifyCall {run : List Token} {last : Token}
    (h : run.takeWhile (!·.isPunctuation "(") ≠ []) :
    (calleePieces false (run.takeWhile (!·.isPunctuation "("))).2 ⊆
      (classifyCall run last).faults := by
  obtain ⟨head, names, hcallee⟩ := List.exists_cons_of_ne_nil h
  intro d hd
  rw [hcallee] at hd
  simp only [classifyCall, hcallee]
  split
  · simp [hd]
  · split_ifs <;> simp [hd]

theorem classify_concat {run : List Token} {last : Token} (hne : run ≠ [])
    (hp : last.isPunctuation ")" = true) : classify (run ++ [last]) = classifyCall run last := by
  obtain ⟨t, ts, rfl⟩ := List.exists_cons_of_ne_nil hne
  obtain ⟨u, us, hcons⟩ : ∃ u us, ts ++ [last] = u :: us := List.exists_cons_of_ne_nil (by simp)
  have hlast : (t :: u :: us).getLast? = some last := by
    rw [← hcons, ← List.cons_append, List.getLast?_concat]
  rw [List.cons_append, hcons, classify_of_no_shape (ofShape?_eq_none_of_last hlast hp) hlast hp,
    ← hcons, ← List.cons_append, List.dropLast_concat]

/-- Whatever stands out of place, an invalid token is faulted there. -/
theorem OutOfPlace.exists_blame {t : Token} {run : List Token} (h : OutOfPlace t run)
    (hk : t.kind = .invalid) : ∃ f, t.blame f ∈ (classify run).faults := by
  obtain ⟨-, -, -, -, hmark, -, -⟩ := Token.of_invalid hk
  cases h with
  | alone => exact ⟨.expectedStatement, by simp [classify]⟩
  | @inName before after name closing noOpening isName isClosing =>
    have hsplit : before ++ name :: t :: (after ++ [closing]) =
        before ++ name :: t :: after ++ [closing] := by simp
    have hno : name.isPunctuation "(" = false :=
      Token.not_isPunctuation_of_isValue (Token.isValue_of_isIdentifier isName) "("
    have hcallee : (before ++ name :: t :: after).takeWhile (!·.isPunctuation "(") =
        before ++ name :: t :: after.takeWhile (!·.isPunctuation "(") := by
      rw [List.takeWhile_append_of_pos fun u hu => by simp [noOpening u hu]]
      simp [hno, hmark]
    have hblame := blame_mem_calleePieces before (after.takeWhile (!·.isPunctuation "(")) isName
      (hmark ".") false
    rw [hsplit, classify_concat (by simp) isClosing]
    refine ⟨.unexpectedPunctuation, calleePieces_subset_classifyCall ?_ ?_⟩
    · simp [hcallee]
    · rwa [hcallee]
  | @inArguments callee earlier slots later opening closing isCallee noOpening isOpening commas
      commaDue isClosing closed =>
    have hsplit : callee ++ opening :: (earlier ++ t :: (later ++ [closing])) =
        callee ++ opening :: (earlier ++ t :: later) ++ [closing] := by simp
    rw [hsplit, closed_concat_iff isClosing] at closed
    rw [hsplit, classify_concat (by simp) isClosing]
    obtain ⟨head, names, rfl⟩ := List.exists_cons_of_ne_nil isCallee
    refine ⟨.expectedComma, ?_⟩
    simp only [classifyCall, takeWhile_callee noOpening isOpening, List.drop_left, if_neg closed]
    exact List.mem_append_right _ (blame_mem_callArguments commas commaDue (hmark ","))

end Statements

/-- Where no statement is under way, an invalid token is faulted when it is read. -/
theorem Awaiting.faults_respond_invalid {a : Awaiting} {t : Token} (hk : t.kind = .invalid)
    (ha : ∀ kept, a ≠ .statement kept) : ∃ f, (a.respond t).faults = [t.blame f] := by
  obtain ⟨hend, hcomment, hname, -, hmark, -, -⟩ := Token.of_invalid hk
  cases a with
  | statement kept => exact (ha kept rfl).elim
  | function | functionName | parameterList | firstParameter | nextParameter | parameterType
  | parameterName | body =>
    simp [respond, respondTo, respondToType, hk, hend, hcomment, hname, hmark, Response.refuse]

section Text

variable {file text : String}

theorem faults_subset_diagnostics (file text : String) :
    Awaiting.function.faults (tokenize file text) ⊆ (compile file text).diagnostics := by
  intro d hd
  rw [← (filter_diagnostics file text).2] at hd
  exact List.mem_of_mem_filter hd

/-- Everything that is blamed on an invalid token is blamed on its order among the others. -/
theorem mem_faults_of_invalid {t : Token} (ht : t ∈ tokenize file text) (hk : t.kind = .invalid)
    {d : Diagnostic} (hd : d ∈ (compile file text).diagnostics) (hplace : d.place = t.place) :
    d ∈ Awaiting.function.faults (tokenize file text) := by
  obtain ⟨hlexical, hsyntactic⟩ := filter_diagnostics file text
  cases hl : d.isLexical with
  | false =>
    rw [← hsyntactic]
    exact List.mem_filter.mpr ⟨hd, by simp [hl]⟩
  | true =>
    have hspelling : d ∈ spellingFaults file text := hlexical ▸ List.mem_filter.mpr ⟨hd, hl⟩
    obtain ⟨r, hr, hdr⟩ := List.mem_flatMap.mp hspelling
    have hnodup : ((tokenize file text).map Token.place).Nodup :=
      (List.pairwise_map.mpr (tokens_inOrder file text)).imp Place.Before.ne
    have htoken : r.token = t := List.inj_on_of_nodup_map hnodup (List.mem_map_of_mem hr) ht
      ((place_of_mem_diagnostics hdr).2.symm.trans hplace)
    obtain ⟨xs, ys, hrs⟩ := List.append_of_mem hr
    have hstands := (stands_of_reads (reads_start file text) hrs).1
    rw [hstands.diagnostics_of_single (.inr (htoken ▸ hk))] at hdr
    simp at hdr

/-- An invalid token that stands in no body is blamed. -/
theorem exists_diagnostic_of_leaves {before after : List Token} {t : Token}
    (hts : tokenize file text = before ++ t :: after) (hk : t.kind = .invalid)
    (hdue : ¬ Leaves (significant before) .closing) :
    ∃ d ∈ (compile file text).diagnostics, d.place = t.place := by
  have hordinary := ordinary_significant (not_isEndOfFile_of_append hts (List.cons_ne_nil _ _))
  have hstate : ∀ kept, Awaiting.function.after before ≠ .statement kept := by
    intro kept hafter
    rw [← Awaiting.after_significant] at hafter
    exact hdue ((leaves_iff hordinary).mpr ⟨kept, hafter⟩)
  obtain ⟨f, hf⟩ := Awaiting.faults_respond_invalid hk hstate
  refine ⟨t.blame f, faults_subset_diagnostics file text ?_, rfl⟩
  rw [hts, Awaiting.faults_append, Awaiting.faults_cons, hf]
  simp

/-- A token of a statement is blamed only by what is found wrong with the statement. -/
theorem IsStatement.mem_faults {run : List Token} (h : IsStatement (tokenize file text) run)
    {t : Token} (ht : t ∈ run) {d : Diagnostic}
    (hd : d ∈ Awaiting.function.faults (tokenize file text)) (hplace : d.place = t.place) :
    d ∈ (classify (significant run)).faults := by
  obtain ⟨before, semicolon, rest, hts, hdue, hsemicolon⟩ := h.stands
  obtain ⟨hafter, hfaults⟩ :=
    after_faults_statement hts (List.cons_ne_nil _ _) hdue h.noSemicolon h.noBrace
  have horder := tokens_inOrder file text
  rw [hts, List.pairwise_append] at horder
  obtain ⟨hstart, -, hacross⟩ := horder
  rw [hts, Awaiting.faults_append, hafter, hfaults, Awaiting.faults_cons,
    Awaiting.respond_statement_semicolon hsemicolon, List.reverse_reverse] at hd
  -- What the tokens before the statement and behind it are blamed for has other places.
  rcases List.mem_append.mp hd with hearly | hd
  · obtain ⟨u, hu, huplace⟩ := (Awaiting.function.faults_blamesInOrder before).exists_place hearly
    have hbefore :=
      (List.pairwise_append.mp hstart).2.2 u (by simpa [Awaiting.tokens] using hu) t ht
    exact (hbefore.ne (huplace.trans hplace)).elim
  rcases List.mem_append.mp hd with hstatement | hlate
  · exact hstatement
  · obtain ⟨u, hu, huplace⟩ :=
      ((Awaiting.statement []).faults_blamesInOrder rest).exists_place hlate
    have hbehind := hacross t (List.mem_append_right before ht) u
      (List.mem_cons_of_mem _ (by simpa [Awaiting.tokens] using hu))
    exact (hbehind.ne (hplace.symm.trans huplace.symm)).elim

theorem IsStatement.faults_subset {run : List Token} (h : IsStatement (tokenize file text) run) :
    (classify (significant run)).faults ⊆ (compile file text).diagnostics := by
  obtain ⟨rs, r, more, -, -, hds⟩ := h.recorded
  rw [hds]
  intro d hd
  simp [hd]

section Unfinished

variable {before mid : List Token} {t : Token} (hk : t.kind = .invalid)
  (hs : ∀ u ∈ mid, u.isPunctuation ";" = false) (hdue : Leaves (significant before) .closing)
include hk hs hdue

/-- An invalid token of a body is kept as long as no semicolon is read. -/
theorem after_invalid {us : List Token} (hts : tokenize file text = before ++ t :: mid ++ us)
    (hne : us ≠ []) :
    ∃ kept, t ∈ kept ∧ Awaiting.function.after (before ++ t :: mid) = .statement kept := by
  obtain ⟨hbefore, hrest⟩ := List.forall_mem_append.mp (not_isEndOfFile_of_append hts hne)
  obtain ⟨ht, hmid⟩ := List.forall_mem_cons.mp hrest
  obtain ⟨-, hcomment, -, -, hmark, -, -⟩ := Token.of_invalid hk
  obtain ⟨kept, hstate⟩ := (leaves_iff (ordinary_significant hbefore)).mp hdue
  rw [Awaiting.after_significant] at hstate
  refine ⟨(significant mid).reverse ++ t :: kept, by simp, ?_⟩
  rw [Awaiting.after_append, hstate, Awaiting.after_cons,
    Awaiting.respond_statement ⟨hcomment, ht⟩ (hmark ";") fun _ => hmark "\x7d"]
  exact (Awaiting.after_faults_run hmid hs (by simp)).1

theorem exists_statement_of_semicolon {semicolon : Token} {rest : List Token}
    (hts : tokenize file text = before ++ t :: mid ++ semicolon :: rest)
    (hsemicolon : semicolon.isPunctuation ";" = true) :
    ∃ run, IsStatement (tokenize file text) run ∧ t ∈ run := by
  obtain ⟨kept, hkept, hstate⟩ := after_invalid hk hs hdue hts (List.cons_ne_nil _ _)
  obtain ⟨_, run, -, hrun, hstatement⟩ := exists_isStatement hts hstate hsemicolon
  have hmem : t ∈ significant run := by rwa [hrun, List.mem_reverse]
  exact ⟨run, hstatement, List.mem_of_mem_filter hmem⟩

theorem exists_diagnostic_of_endOfFile {last : Token}
    (hts : tokenize file text = before ++ t :: mid ++ [last]) (hlast : last.kind = .endOfFile) :
    ∃ d ∈ (compile file text).diagnostics, d.place = last.place := by
  obtain ⟨kept, -, hstate⟩ := after_invalid hk hs hdue hts (List.cons_ne_nil _ _)
  rcases (Awaiting.statement kept).faults_endOfFile hlast with
    ⟨hfunction | hbody, -⟩ | ⟨-, f, hf⟩
  · cases hfunction
  · cases hbody
  · refine ⟨last.blame f, faults_subset_diagnostics file text ?_, rfl⟩
    rw [hts, Awaiting.faults_append, hstate, hf]
    simp

end Unfinished

theorem exists_split_at_semicolon (ts : List Token) : ∃ mid rest, ts = mid ++ rest ∧
    (∀ t ∈ mid, t.isPunctuation ";" = false) ∧ ∀ t ∈ rest.head?, t.isPunctuation ";" = true := by
  refine ⟨ts.takeWhile (!·.isPunctuation ";"), ts.dropWhile (!·.isPunctuation ";"),
    List.takeWhile_append_dropWhile.symm, fun t ht => by simpa using List.mem_takeWhile_imp ht, ?_⟩
  intro t ht
  have hstop := List.head?_dropWhile_not (!·.isPunctuation ";") ts
  rw [Option.mem_def] at ht
  simpa [ht] using hstop

/-- An invalid token stands in a statement, or it is blamed, or the end of the text is. -/
theorem exists_statement_of_invalid {t : Token} (ht : t ∈ tokenize file text)
    (hk : t.kind = .invalid) :
    (∃ run, IsStatement (tokenize file text) run ∧ t ∈ run) ∨
      (∃ d ∈ (compile file text).diagnostics, d.place = t.place) ∨
      ∃ last ∈ tokenize file text, last.kind = .endOfFile ∧
        ∃ d ∈ (compile file text).diagnostics, d.place = last.place := by
  obtain ⟨before, after, hts⟩ := List.append_of_mem ht
  by_cases hdue : Leaves (significant before) .closing
  · obtain ⟨mid, rest, rfl, hs, hrest⟩ := exists_split_at_semicolon after
    rw [← List.cons_append, ← List.append_assoc] at hts
    cases rest with
    | cons semicolon rest =>
      exact .inl (exists_statement_of_semicolon hk hs hdue hts (hrest semicolon (by simp)))
    | nil =>
      -- No semicolon follows, and what is read last is the end of the text.
      obtain ⟨init, last, htokens, hlast, -⟩ := exists_init_tokenize file text
      refine .inr (.inr ⟨last, by simp [htokens], hlast, ?_⟩)
      rw [List.append_nil] at hts
      rcases List.eq_nil_or_concat mid with rfl | ⟨mid, u, rfl⟩
      · obtain ⟨-, hu⟩ := List.append_inj' (hts.symm.trans htokens) rfl
        obtain rfl : t = last := by simpa using hu
        simp [hk] at hlast
      · rw [List.concat_eq_append] at hts hs
        rw [← List.cons_append, ← List.append_assoc] at hts
        obtain ⟨-, hu⟩ := List.append_inj' (hts.symm.trans htokens) rfl
        obtain rfl : u = last := by simpa using hu
        exact exists_diagnostic_of_endOfFile hk (List.forall_mem_append.mp hs).1 hdue hts hlast
  · exact .inr (.inl (exists_diagnostic_of_leaves hts hk hdue))

end Text

/-- Everywhere outside of bodies an invalid token is blamed, and in a statement where it stands out
of place. Two tokens or more that have no form are passed over with the invalid ones among them, and
where nothing in a statement is blamed though one of its tokens is invalid, it has no form or is a
call with a gap. So invalid tokens of a text that compiles without diagnostics stand in such
statements only. -/
theorem compile_blames_invalid (file text : String) :
    let ts := tokenize file text
    let ds := (compile file text).diagnostics
    (∀ before t after, ts = before ++ t :: after → t.kind = .invalid →
      ¬ Leaves (significant before) .closing → ∃ d ∈ ds, d.place = t.place) ∧
    (∀ run, IsStatement ts run → ∀ t ∈ run, t.kind = .invalid →
      (OutOfPlace t (significant run) → ∃ d ∈ ds, d.place = t.place) ∧
      (Formless (significant run) → ∀ d ∈ ds, d.place ≠ t.place) ∧
      ((∀ u ∈ run, ∀ d ∈ ds, d.place ≠ u.place) →
        Formless (significant run) ∨ ∃ s, CallWithGap (significant run) s)) ∧
    (∀ t ∈ ts, t.kind = .invalid → (∃ run, IsStatement ts run ∧ t ∈ run) ∨
      (∃ d ∈ ds, d.place = t.place) ∨
      ∃ last ∈ ts, last.kind = .endOfFile ∧ ∃ d ∈ ds, d.place = last.place) ∧
    (ds = [] → ∀ t ∈ ts, t.kind = .invalid → ∃ run, IsStatement ts run ∧ t ∈ run ∧
      (Formless (significant run) ∨ ∃ s, CallWithGap (significant run) s)) := by
  intro ts ds
  have hsilent : ∀ run, IsStatement ts run → ∀ t ∈ run, t.kind = .invalid →
      (∀ u ∈ run, ∀ d ∈ ds, d.place ≠ u.place) →
      Formless (significant run) ∨ ∃ s, CallWithGap (significant run) s := by
    intro run hrun t ht hk hnone
    obtain ⟨-, hcomment, -⟩ := Token.of_invalid hk
    have hfaults : (classify (significant run)).faults = [] := by
      rw [List.eq_nil_iff_forall_not_mem]
      intro d hd
      obtain ⟨u, hu, hplace⟩ := (classify_blamesInOrder (significant run)).exists_place hd
      exact hnone u (List.mem_of_mem_filter hu) d (hrun.faults_subset hd) hplace.symm
    exact formless_or_callWithGap hfaults (List.mem_filter.mpr ⟨ht, by simp [hcomment]⟩) hk
  refine ⟨fun before t after => exists_diagnostic_of_leaves, fun run hrun t ht hk =>
      ⟨fun hout => ?_, fun hformless d hd hplace => ?_, hsilent run hrun t ht hk⟩,
    fun t => exists_statement_of_invalid, fun hnone t ht hk => ?_⟩
  · obtain ⟨f, hf⟩ := hout.exists_blame hk
    exact ⟨t.blame f, hrun.faults_subset hf, rfl⟩
  · obtain ⟨before, semicolon, rest, hts, -⟩ := hrun.stands
    have hmem : t ∈ tokenize file text := by
      change tokenize file text = _ at hts
      simp [hts, ht]
    have hfault := hrun.mem_faults ht (mem_faults_of_invalid hmem hk hd hplace) hplace
    rw [classify_eq_none_iff.mpr (.inr hformless)] at hfault
    simp at hfault
  · rcases exists_statement_of_invalid ht hk with
      ⟨run, hrun, hin⟩ | ⟨d, hd, -⟩ | ⟨-, -, -, d, hd, -⟩
    · exact ⟨run, hrun, hin, hsilent run hrun t hin hk fun u _ d hd => by simp [hnone] at hd⟩
    · simp [ds, hnone] at hd
    · simp [ds, hnone] at hd

/-- The character behind the name starts no token, and nothing is said of it. -/
theorem compile_formless_silent :
    (compile "main.sls" "fun f() \x7b a \x01; \x7d").diagnostics = [] ∧
      ¬ ∀ t ∈ tokenize "main.sls" "fun f() \x7b a \x01; \x7d", t.kind = .invalid →
        ∃ d ∈ (compile "main.sls" "fun f() \x7b a \x01; \x7d").diagnostics,
          d.place = t.place := by
  decide +kernel

end SlsLang
