import SlsLang.Proofs.DiagnosticOrder
import SlsLang.Proofs.FunctionGrammar

namespace SlsLang

/-- These tokens of a row make up a statement of a body: they stand where one may start, and go on up
to the semicolon that ends it. -/
structure IsStatement (ts run : List Token) : Prop where
  stands : ∃ before semicolon rest, ts = before ++ run ++ semicolon :: rest ∧
    StatementDue (significant before) ∧ semicolon.isPunctuation ";" = true
  noSemicolon : ∀ t ∈ run, t.isPunctuation ";" = false
  noBrace : ∀ t ∈ (significant run).head?, t.isPunctuation "\x7d" = false

namespace Awaiting

/-- The tokens of a statement are kept up to its end, and none is faulted when it is read. -/
theorem after_faults_run {run kept : List Token} (hend : ∀ t ∈ run, t.isEndOfFile = false)
    (hs : ∀ t ∈ run, t.isPunctuation ";" = false)
    (hb : kept = [] → ∀ t ∈ (significant run).head?, t.isPunctuation "\x7d" = false) :
    (statement kept).after run = .statement ((significant run).reverse ++ kept) ∧
      (statement kept).faults run = [] := by
  induction run generalizing kept with
  | nil => exact ⟨rfl, rfl⟩
  | cons t run ih =>
    obtain ⟨ht, hrest⟩ := List.forall_mem_cons.mp hend
    obtain ⟨hts, hsrest⟩ := List.forall_mem_cons.mp hs
    cases hc : t.isComment with
    | true =>
      rw [significant_cons_comment hc] at hb ⊢
      rw [after_cons, faults_cons, respond_comment _ hc]
      exact ih hrest hsrest hb
    | false =>
      rw [significant_cons hc] at hb ⊢
      rw [after_cons, faults_cons, respond_statement ⟨hc, ht⟩ hts (by simpa using hb),
        List.reverse_cons, List.append_assoc]
      exact ih hrest hsrest (by simp)

/-- Only a statement under way, or its last token, leaves a statement under way. -/
theorem of_next_respond_statement {a : Awaiting} {t u : Token} {kept : List Token}
    (h : (a.respond t).next = .statement (u :: kept)) :
    t.isComment = true ∧ a = .statement (u :: kept) ∨
      t.isComment = false ∧ u = t ∧ a = .statement kept ∧ t.isPunctuation ";" = false ∧
        (kept = [] → t.isPunctuation "\x7d" = false) := by
  cases hc : t.isComment with
  | true =>
    rw [respond_comment a hc] at h
    exact .inl ⟨rfl, h⟩
  | false =>
    rw [respond, if_neg (by simp [hc])] at h
    refine .inr ⟨rfl, ?_⟩
    cases a with
    | statement run =>
      simp only [respondTo] at h
      split_ifs at h with hb he hs
      · simp [Response.pass] at h
      · simp [Response.refuse] at h
      · simp at h
      · obtain ⟨rfl, rfl⟩ : t = u ∧ run = kept := by simpa [Response.pass] using h
        exact ⟨rfl, rfl, by simpa using hs, fun hk => by simpa [hk] using hb⟩
    | function | functionName | parameterList | firstParameter | nextParameter | parameterType
    | parameterName | body =>
      simp only [respondTo, respondToType] at h
      split_ifs at h <;> simp [Response.pass, Response.accept, Response.refuse] at h

/-- A statement under way started at some token. -/
theorem exists_run {ts kept : List Token} (h : function.after ts = .statement kept) :
    ∃ before run, ts = before ++ run ∧ function.after before = .statement [] ∧
      (∀ t ∈ run, t.isPunctuation ";" = false) ∧
      (∀ t ∈ (significant run).head?, t.isPunctuation "\x7d" = false) ∧
      significant run = kept.reverse := by
  induction ts using List.reverseRecOn generalizing kept with
  | nil => simp [after_nil] at h
  | append_singleton ts t ih =>
    cases kept with
    | nil => exact ⟨ts ++ [t], [], by simp, h, by simp, by simp [significant], rfl⟩
    | cons u kept =>
      rw [after_concat] at h
      rcases of_next_respond_statement h with ⟨hc, ha⟩ | ⟨hc, rfl, ha, hs, hb⟩
      · obtain ⟨before, run, rfl, hbefore, hnone, hbrace, hrun⟩ := ih ha
        have hsame : significant (run ++ [t]) = significant run := by
          rw [significant_append, significant_cons_comment hc]
          simp [significant]
        refine ⟨before, run ++ [t], by simp, hbefore, ?_, by rwa [hsame], by rwa [hsame]⟩
        refine List.forall_mem_append.mpr ⟨hnone, ?_⟩
        have hkind : t.kind = .comment := by simpa [Token.isComment] using hc
        simp [Token.isPunctuation, hkind]
      · obtain ⟨before, run, rfl, hbefore, hnone, hbrace, hrun⟩ := ih ha
        have hmore : significant (run ++ [u]) = kept.reverse ++ [u] := by
          rw [significant_append, significant_cons hc, hrun]
          simp [significant]
        refine ⟨before, run ++ [u], by simp, hbefore,
          List.forall_mem_append.mpr ⟨hnone, by simpa using hs⟩, ?_, by simpa using hmore⟩
        rw [hmore, ← hrun]
        rw [hrun] at hbrace ⊢
        cases kept with
        | nil => simpa using hb
        | cons v kept =>
          rwa [List.head?_append_of_ne_nil _ (by simp)]

end Awaiting

section Text

variable {file text : String}

/-- The tokens of a statement are kept until the semicolon behind them. -/
theorem after_faults_statement {before run us : List Token}
    (hts : tokenize file text = before ++ run ++ us) (hne : us ≠ [])
    (hdue : StatementDue (significant before)) (hs : ∀ t ∈ run, t.isPunctuation ";" = false)
    (hb : ∀ t ∈ (significant run).head?, t.isPunctuation "\x7d" = false) :
    Awaiting.function.after (before ++ run) = .statement (significant run).reverse ∧
      Awaiting.function.faults (before ++ run) = Awaiting.function.faults before := by
  obtain ⟨hbefore, hrun⟩ := List.forall_mem_append.mp (not_isEndOfFile_of_append hts hne)
  have hstart := (statementDue_iff (ordinary_significant hbefore)).mp hdue
  rw [Awaiting.after_significant] at hstart
  obtain ⟨hafter, hfaults⟩ := Awaiting.after_faults_run hrun hs fun _ => hb
  rw [Awaiting.after_append, Awaiting.faults_append, hstart, hafter, hfaults, List.append_nil,
    List.append_nil]
  exact ⟨rfl, rfl⟩

/-- What is kept in front of a semicolon makes up a statement. -/
theorem exists_isStatement {ts rest : List Token} {semicolon : Token} {kept : List Token}
    (hts : tokenize file text = ts ++ semicolon :: rest)
    (hafter : Awaiting.function.after ts = .statement kept)
    (hsemicolon : semicolon.isPunctuation ";" = true) :
    ∃ before run, ts = before ++ run ∧ significant run = kept.reverse ∧
      IsStatement (tokenize file text) run := by
  obtain ⟨before, run, rfl, hbefore, hs, hb, hrun⟩ := Awaiting.exists_run hafter
  have hend := not_isEndOfFile_of_append hts (List.cons_ne_nil _ _)
  have hordinary := ordinary_significant (List.forall_mem_append.mp hend).1
  rw [← Awaiting.after_significant] at hbefore
  exact ⟨before, run, rfl, hrun,
    ⟨before, semicolon, rest, hts, (statementDue_iff hordinary).mpr hbefore, hsemicolon⟩, hs, hb⟩

/-- What is found wrong with a statement is recorded at the semicolon behind it. -/
theorem IsStatement.recorded {run : List Token} (h : IsStatement (tokenize file text) run) :
    ∃ rs r more, (Lexer.start file text).readings = rs ++ r :: more ∧
      (∀ t ∈ run, t ∈ rs.map Reading.token) ∧
      (compile file text).diagnostics = blamed .function rs ++
        (r.diagnostics ++ (classify (significant run)).faults ++ blamed (.statement []) more) := by
  obtain ⟨before, semicolon, rest, hts, hdue, hsemicolon⟩ := h.stands
  have hafter := (after_faults_statement hts (List.cons_ne_nil _ _) hdue h.noSemicolon h.noBrace).1
  obtain ⟨rs, others, hrs, hinit, hothers⟩ := List.map_eq_append_iff.mp hts
  obtain ⟨r, more, rfl, rfl, rfl⟩ := List.map_eq_cons_iff.mp hothers
  refine ⟨rs, r, more, hrs, fun t ht => hinit ▸ List.mem_append_right before ht, ?_⟩
  show blamed .function (Lexer.start file text).readings = _
  rw [hrs, blamed_append, blamed_cons, hinit, hafter,
    Awaiting.respond_statement_semicolon hsemicolon, List.reverse_reverse]

end Text

end SlsLang
