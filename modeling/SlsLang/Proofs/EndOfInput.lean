import SlsLang.Compilation
import SlsLang.Proofs.DiagnosticOrder
import SlsLang.Proofs.FunctionGrammar
import SlsLang.Proofs.PulledRecognition

namespace SlsLang

namespace Awaiting

/-- The end of the text is blamed in every state but two: between functions, and where the body of a
function is due whose parameter list broke off. -/
theorem faults_endOfFile (a : Awaiting) {t : Token} (ht : t.kind = .endOfFile) :
    (a = .function ∨ a = .body false) ∧ a.faults [t] = [] ∨
      (a ≠ .function ∧ a ≠ .body false) ∧ ∃ f, a.faults [t] = [t.blame f] := by
  obtain ⟨hend, hcomment, hname, hmark, hword⟩ := Token.of_endOfFile ht
  have hfaults : a.faults [t] = (a.respondTo t).faults := by
    simp [faults, responses_cons, responses_nil, respond, hcomment]
  rw [hfaults]
  cases a with
  | function => simp [respondTo, ht, hword, Response.pass]
  | body listAccepted =>
    cases listAccepted <;> simp [respondTo, hmark, hend, Response.pass, Response.refuse]
  | functionName | parameterList | firstParameter | nextParameter | parameterType | parameterName
  | statement =>
    simp [respondTo, respondToType, hmark, hend, hname, Response.refuse]

theorem respond_statement_endOfFile {t : Token} (h : t.kind = .endOfFile) (run : List Token) :
    (statement run).respond t = .refuse t .unexpectedEndOfFile .function := by
  obtain ⟨hend, hcomment, -, hmark, -⟩ := Token.of_endOfFile h
  simp [respond, respondTo, hcomment, hend, hmark]

end Awaiting

/-- How often the order of tokens is found wrong at a place. -/
def timesBlamed (ds : List Diagnostic) (p : Place) : Nat :=
  (ds.filter (!·.isLexical)).countP (·.place == p)

/-- Only the end of the text can be blamed at its place. -/
theorem timesBlamed_endOfFile {file text : String} {init : List Token} {last : Token}
    (h : tokenize file text = init ++ [last]) :
    timesBlamed (compile file text).diagnostics last.place =
      ((Awaiting.function.after (significant init)).faults [last]).countP
        (·.place == last.place) := by
  have hsyntactic := (filter_diagnostics file text).2
  have horder := tokens_inOrder file text
  rw [h] at horder hsyntactic
  rw [timesBlamed, hsyntactic, Awaiting.faults_append, List.countP_append,
    Awaiting.after_significant, Nat.add_eq_right, List.countP_eq_zero]
  intro d hd heq
  obtain ⟨t, ht, hplace⟩ := (Awaiting.function.faults_blamesInOrder init).exists_place hd
  have hinit : t ∈ init := by simpa [Awaiting.tokens] using ht
  have hbefore := (List.pairwise_append.mp horder).2.2 t hinit last (by simp)
  rw [hplace] at hbefore
  exact hbefore.ne (by simpa using heq)

/-- The diagnostic says that the text ends too soon. -/
def Diagnostic.endsTooSoon (d : Diagnostic) : Bool := d.fault == .syntactic .unexpectedEndOfFile

section EndOfFile

theorem endsTooSoon_blame {t : Token} {f : SyntaxFault} (h : f ≠ .unexpectedEndOfFile) :
    (t.blame f).endsTooSoon = false := by
  simpa [Diagnostic.endsTooSoon, Token.blame] using h

theorem endsTooSoon_calleePieces (dotDue : Bool) (ts : List Token) :
    ∀ d ∈ (calleePieces dotDue ts).2, d.endsTooSoon = false := by
  induction ts generalizing dotDue with
  | nil => simp [calleePieces]
  | cons t ts ih =>
    have hblamed : ∀ due, ∀ d ∈ t.blame .unexpectedPunctuation :: (calleePieces due ts).2,
        d.endsTooSoon = false := fun due =>
      List.forall_mem_cons.mpr ⟨endsTooSoon_blame (by simp), ih due⟩
    simp only [calleePieces]
    split
    · cases dotDue with
      | true => exact ih false
      | false => exact hblamed false
    · cases dotDue with
      | true => exact hblamed _
      | false => exact ih _

theorem endsTooSoon_callArguments (ts : List Token) :
    ∀ d ∈ (callArguments ts).2, d.endsTooSoon = false := by
  fun_induction callArguments ts with
  | case1 => simp
  | case2 t => simp
  | case3 t comma ts value hc values faults heq ih => rwa [heq] at ih
  | case4 t comma ts value hc =>
    exact List.forall_mem_singleton.mpr (endsTooSoon_blame (by simp))

theorem endsTooSoon_classifyCall (run : List Token) (last : Token) :
    ∀ d ∈ (classifyCall run last).faults, d.endsTooSoon = false := by
  have hpieces := endsTooSoon_calleePieces false (run.takeWhile (!·.isPunctuation "("))
  have hlast : ∀ f, f ≠ SyntaxFault.unexpectedEndOfFile →
      ∀ d ∈ [last.blame f], d.endsTooSoon = false := fun f hf =>
    List.forall_mem_singleton.mpr (endsTooSoon_blame hf)
  simp only [classifyCall]
  split
  next => exact List.forall_mem_append.mpr ⟨hpieces, hlast _ (by simp)⟩
  next open_ inside _ =>
    split
    next => exact hlast _ (by simp)
    next =>
      split
      · exact List.forall_mem_append.mpr ⟨hpieces, hlast _ (by simp)⟩
      · exact List.forall_mem_append.mpr ⟨hpieces, endsTooSoon_callArguments inside⟩

/-- A statement is never found to lack more text. -/
theorem endsTooSoon_classify (run : List Token) :
    ∀ d ∈ (classify run).faults, d.endsTooSoon = false := by
  unfold classify
  split
  next => simp
  next t => exact List.forall_mem_singleton.mpr (endsTooSoon_blame (by simp))
  next =>
    split
    next => simp
    next =>
      split
      next last _ =>
        split
        · exact endsTooSoon_classifyCall _ last
        · simp
      next => simp

namespace Awaiting

/-- Only the end of the text ends it too soon. -/
theorem endsTooSoon_respond (a : Awaiting) {t : Token} (ht : t.isEndOfFile = false) :
    ∀ d ∈ (a.respond t).faults, d.endsTooSoon = false := by
  cases hc : t.isComment with
  | true => simp [a.respond_comment hc, Response.pass]
  | false =>
    have hrefuse : ∀ f next, f ≠ SyntaxFault.unexpectedEndOfFile →
        ∀ d ∈ (Response.refuse t f next).faults, d.endsTooSoon = false := fun f next hf =>
      List.forall_mem_singleton.mpr (endsTooSoon_blame hf)
    rw [respond, if_neg (by simp [hc])]
    cases a with
    | statement run =>
      rw [respondTo, ht]
      split
      · simp [Response.pass]
      · rw [if_neg (by simp)]
        split
        · exact endsTooSoon_classify run.reverse
        · simp [Response.pass]
    | function | functionName | parameterList | firstParameter | nextParameter | parameterType
    | parameterName | body =>
      simp only [respondTo, respondToType]
      split_ifs <;> first | exact hrefuse _ _ (by simp) | simp [Response.pass, Response.accept]

theorem endsTooSoon_faults (a : Awaiting) {ts : List Token}
    (h : ∀ t ∈ ts, t.isEndOfFile = false) : ∀ d ∈ a.faults ts, d.endsTooSoon = false := by
  induction ts generalizing a with
  | nil => simp [faults, responses_nil]
  | cons t ts ih =>
    obtain ⟨ht, hts⟩ := List.forall_mem_cons.mp h
    rw [faults_cons]
    exact List.forall_mem_append.mpr ⟨a.endsTooSoon_respond ht, ih _ hts⟩

end Awaiting

end EndOfFile

/-- Where a text ends within a function, its end is blamed just once, and where it ends between
functions, never. It is not blamed either where the parameter list broke off at the last token before
it, though the body is due there. -/
theorem compile_blames_endOfFile (file text : String) :
    ∃ init last, tokenize file text = init ++ [last] ∧ last.kind = .endOfFile ∧
      let blames := timesBlamed (compile file text).diagnostics last.place
      (∃! due, Leaves (significant init) due) ∧
      (Leaves (significant init) .function → blames = 0) ∧
      ∀ due, Leaves (significant init) due → due ≠ .function →
        (¬ ListBrokenOff (significant init) → blames = 1) ∧
        (ListBrokenOff (significant init) → blames = 0) := by
  obtain ⟨init, last, htokens, hlast, hinit⟩ := exists_init_tokenize file text
  refine ⟨init, last, htokens, hlast, ?_⟩
  have hordinary := ordinary_significant hinit
  have hblames := timesBlamed_endOfFile htokens
  have hnone : Awaiting.function.after (significant init) = .function ∨
      Awaiting.function.after (significant init) = .body false →
      timesBlamed (compile file text).diagnostics last.place = 0 := by
    intro hafter
    rcases (Awaiting.function.after (significant init)).faults_endOfFile hlast with
      ⟨-, hfaults⟩ | ⟨⟨hfunction, hbody⟩, -⟩
    · rw [hblames, hfaults, List.countP_nil]
    · exact (hafter.elim hfunction hbody).elim
  obtain ⟨due, hdue⟩ := exists_leaves (significant init)
  refine ⟨⟨due, hdue, fun _ h => h.unique hordinary hdue⟩,
    fun h => hnone (.inl (h.awaits hordinary)), fun due h hne => ⟨fun hlist => ?_,
      fun hlist => hnone (.inr ((listBrokenOff_iff hordinary).mp hlist))⟩⟩
  rcases (Awaiting.function.after (significant init)).faults_endOfFile hlast with
    ⟨hfunction | hbody, -⟩ | ⟨-, f, hfaults⟩
  · exact (hne (h.unique hordinary ((leaves_iff hordinary).mpr hfunction))).elim
  · exact (hlist ((listBrokenOff_iff hordinary).mpr hbody)).elim
  · rw [hblames, hfaults]
    simp [Token.blame]

/-- The parenthesis of the list is missing at the second name, and nothing is said of the end. -/
theorem compile_listBrokenOff_unreported :
    ∃ init last, tokenize "main.sls" "fun f x" = init ++ [last] ∧ last.kind = .endOfFile ∧
      Leaves (significant init) .brace ∧
      timesBlamed (compile "main.sls" "fun f x").diagnostics last.place = 0 := by
  obtain ⟨init, last, htokens, hlast, hinit⟩ := exists_init_tokenize "main.sls" "fun f x"
  have hafter : Awaiting.function.after (significant (tokenize "main.sls" "fun f x").dropLast) =
      .body false := by decide +kernel
  rw [htokens, List.dropLast_concat] at hafter
  have hordinary := ordinary_significant hinit
  refine ⟨init, last, htokens, hlast, (leaves_iff hordinary).mpr ⟨false, hafter⟩, ?_⟩
  rw [timesBlamed_endOfFile htokens, hafter]
  rcases (Awaiting.body false).faults_endOfFile hlast with ⟨-, hfaults⟩ | ⟨⟨-, hbody⟩, -⟩
  · rw [hfaults, List.countP_nil]
  · exact (hbody rfl).elim

end SlsLang
