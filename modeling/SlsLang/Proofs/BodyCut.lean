import SlsLang.Proofs.BodyRuns
import SlsLang.Proofs.EndOfInput
import SlsLang.Proofs.TreeSchema

namespace SlsLang

namespace Awaiting

/-- Where the start of a body is recognized, its header was read, and its statements are due. -/
theorem of_construct?_body {a : Awaiting} {t brace : Token}
    (h : (a.respond t).construct? = some (.body brace)) :
    a.region = .header ∧ a.respond t = .accept (.body brace) (.statement []) := by
  generalize hr : a.respond t = r at h
  cases hr ▸ a.answer_respond t with
  | skip | pass | refuse => simp [Response.pass, Response.refuse] at h
  | @classified run => simp at h
  | accept completes =>
    cases completes with
    | function | parameter => simp [Response.accept] at h
    | body listAccepted =>
      obtain rfl : t = brace := by simpa [Response.accept] using h
      exact ⟨rfl, rfl⟩

section Body

variable {header inner : List Token} {brace closing last : Token}

/-- Behind the brace of a body, its tokens are read as those of statements. -/
theorem read_body (h : ((function.after header).respond brace).construct? = some (.body brace))
    (us : List Token) :
    function.constructs (header ++ brace :: us) =
      function.constructs header ++ .body brace :: (statement []).constructs us ∧
    function.faults (header ++ brace :: us) =
      function.faults header ++ (statement []).faults us := by
  obtain ⟨-, hanswer⟩ := of_construct?_body h
  rw [constructs_append, faults_append, constructs_cons, faults_cons, hanswer]
  exact ⟨rfl, rfl⟩

/-- Behind the brace that closes a body, a function is due. -/
theorem read_closed (hinner : ∀ t ∈ inner, t.Ordinary) (hopen : OpenBody inner)
    (hstarts : StatementStarts inner) (hclosing : closing.isPunctuation "\x7d" = true)
    (rest : List Token) :
    (statement []).constructs (inner ++ closing :: rest) =
      (bodyStatements inner).map .statement ++ function.constructs rest ∧
    (statement []).faults (inner ++ closing :: rest) = bodyFaults inner ++ function.faults rest := by
  obtain ⟨hafter, hconstructs, hfaults⟩ := body_of_openBody hinner hopen
  obtain ⟨run, hrun, hnone⟩ := after_of_openBody hinner hopen
  rw [hnone.mpr hstarts] at hrun
  rw [constructs_append, faults_append, constructs_cons, faults_cons, hrun, hconstructs, hfaults,
    respond_closing hclosing]
  exact ⟨rfl, rfl⟩

/-- Where nothing closes a body, the end of the text is blamed, and nothing comes of the open run. -/
theorem read_open (hinner : ∀ t ∈ inner, t.Ordinary) (hopen : OpenBody inner)
    (hlast : last.kind = .endOfFile) :
    (statement []).constructs (inner ++ [last]) = (bodyStatements inner).map .statement ∧
    (statement []).faults (inner ++ [last]) =
      bodyFaults inner ++ [last.blame .unexpectedEndOfFile] := by
  obtain ⟨hafter, hconstructs, hfaults⟩ := body_of_openBody hinner hopen
  rw [constructs_append, faults_append, constructs_singleton, faults_singleton, hafter, hconstructs,
    hfaults, respond_statement_endOfFile hlast]
  exact ⟨List.append_nil _, rfl⟩

end Body

end Awaiting

section Text

variable {file text : String}

/-- The tree of a text holds the functions that its significant tokens make. -/
theorem tree_of_constructs {fs : List FunctionParts}
    (h : Awaiting.function.constructs (significant (tokenize file text)) =
      fs.flatMap FunctionParts.constructs) :
    (compile file text).tree = (programOutline file fs).forest 0 := by
  have hconstructs : (recognize (Lexer.start file text).readings).constructs =
      fs.flatMap FunctionParts.constructs :=
    (Awaiting.function.constructs_faults_significant (tokenize file text)).1.symm.trans h
  simp only [compile, compileInto, hconstructs]
  exact (SyntaxBuilder.atRoot_start 0 file).tree_eq_forest fs

/-- That the text ends too soon is never a fault of spelling. -/
theorem countP_endsTooSoon (ds : List Diagnostic) :
    (ds.filter (!·.isLexical)).countP Diagnostic.endsTooSoon = ds.countP Diagnostic.endsTooSoon := by
  rw [List.countP_filter]
  refine List.countP_congr fun d _ => ?_
  have hsyntactic : d.endsTooSoon = true → d.isLexical = false := by
    intro h
    have hfault : d.fault = .syntactic .unexpectedEndOfFile := by
      simpa [Diagnostic.endsTooSoon] using h
    simp [Diagnostic.isLexical, hfault, Fault.isLexical]
  simpa using hsyntactic

/-- The significant tokens from the brace of a body on are ordinary, but for the end of the text. -/
theorem exists_init_body {header us : List Token} {brace : Token}
    (hts : significant (tokenize file text) = header ++ brace :: us)
    (hbrace : brace.kind ≠ .endOfFile) :
    ∃ init last, us = init ++ [last] ∧ last.kind = .endOfFile ∧ (∀ t ∈ header, t.Ordinary) ∧
      ∀ t ∈ init, t.Ordinary := by
  obtain ⟨init, last, htokens, hlast, hinit⟩ := exists_init_tokenize file text
  have hordinary := ordinary_significant hinit
  have hcomment : last.isComment = false := by simp [Token.isComment, hlast]
  rw [htokens, significant_append, significant_cons hcomment] at hts
  rcases List.eq_nil_or_concat us with rfl | ⟨us, u, rfl⟩
  · obtain ⟨-, rfl⟩ := List.append_singleton_inj.mp hts
    exact absurd hlast hbrace
  · rw [List.concat_eq_append, ← List.cons_append, ← List.append_assoc] at hts
    obtain ⟨hsame, rfl⟩ := List.append_singleton_inj.mp hts
    rw [hsame] at hordinary
    obtain ⟨hheader, hmore⟩ := List.forall_mem_append.mp hordinary
    exact ⟨us, last, List.concat_eq_append, hlast, hheader, (List.forall_mem_cons.mp hmore).2⟩

/-- What a compilation makes of the tokens behind the brace of a body that it accepted. The body ends
at the first closing brace behind its opening one or a semicolon, and the tokens before that brace
make its statements. -/
inductive CutsBody (file text : String) (header : List Token) (brace : Token)
    (fs : List FunctionParts) (name : Token) (ps : List (Token × Token)) : List Token → Prop
  /-- Behind the closing brace functions are read again. -/
  | closed {inner rest : List Token} {closing : Token} {more : List FunctionParts}
    (isOpen : OpenBody inner) (starts : StatementStarts inner)
    (isClosing : closing.isPunctuation "\x7d" = true)
    (behind : Awaiting.function.constructs rest = more.flatMap FunctionParts.constructs)
    (tree : (compile file text).tree = (programOutline file
      (fs ++ ⟨name, ps, some (brace, bodyStatements inner)⟩ :: more)).forest 0)
    (faults : (compile file text).diagnostics.filter (!·.isLexical) =
      Awaiting.function.faults header ++ bodyFaults inner ++ Awaiting.function.faults rest) :
    CutsBody file text header brace fs name ps (inner ++ closing :: rest)
  /-- The open run comes to nothing where nothing closes the body, and the end of the text is found
  to come too soon, which nothing else is. -/
  | unclosed {inner : List Token} {last : Token} (isOpen : OpenBody (inner ++ [last]))
    (isLast : last.kind = .endOfFile)
    (tree : (compile file text).tree = (programOutline file
      (fs ++ [⟨name, ps, some (brace, bodyStatements inner)⟩])).forest 0)
    (faults : (compile file text).diagnostics.filter (!·.isLexical) =
      Awaiting.function.faults header ++ bodyFaults inner ++ [last.blame .unexpectedEndOfFile])
    (once : (compile file text).diagnostics.countP
      (·.fault == .syntactic .unexpectedEndOfFile) = 1) :
    CutsBody file text header brace fs name ps (inner ++ [last])

section Brace

variable {header us : List Token} {brace name : Token} {fs : List FunctionParts}
  {ps : List (Token × Token)}
  (hts : significant (tokenize file text) = header ++ brace :: us)
  (haccepted : ((Awaiting.function.after header).respond brace).construct? = some (.body brace))
  (hstart : Awaiting.function.constructs header = fs.flatMap FunctionParts.constructs ++
    (⟨name, ps, none⟩ : FunctionParts).constructs)

include hts haccepted

theorem faults_behindBrace : (compile file text).diagnostics.filter (!·.isLexical) =
    Awaiting.function.faults header ++ (Awaiting.statement []).faults us := by
  rw [(filter_diagnostics file text).2, ← (Awaiting.read_body haccepted us).2, ← hts]
  exact (Awaiting.function.constructs_faults_significant (tokenize file text)).2.symm

include hstart

theorem tree_behindBrace {ss : List Statement} {more : List FunctionParts}
    (h : (Awaiting.statement []).constructs us =
      ss.map .statement ++ more.flatMap FunctionParts.constructs) :
    (compile file text).tree =
      (programOutline file (fs ++ ⟨name, ps, some (brace, ss)⟩ :: more)).forest 0 := by
  refine tree_of_constructs ?_
  rw [hts, (Awaiting.read_body haccepted us).1, hstart, h, List.flatMap_append, List.flatMap_cons,
    FunctionParts.constructs_body]
  simp

theorem cutsBody_closed {inner rest : List Token} {closing : Token}
    (hus : us = inner ++ closing :: rest) (hinner : ∀ t ∈ inner, t.Ordinary)
    (hopen : OpenBody inner) (hstarts : StatementStarts inner)
    (hclosing : closing.isPunctuation "\x7d" = true) :
    CutsBody file text header brace fs name ps us := by
  obtain ⟨hconstructs, hfaults⟩ := Awaiting.read_closed hinner hopen hstarts hclosing rest
  obtain ⟨more, -, hmore⟩ := Awaiting.function.constructs_yields rest
  subst hus
  refine .closed hopen hstarts hclosing hmore (tree_behindBrace hts haccepted hstart ?_) ?_
  · rw [hconstructs, hmore]
  · rw [faults_behindBrace hts haccepted, hfaults, List.append_assoc]

theorem cutsBody_unclosed {inner : List Token} {last : Token} (hus : us = inner ++ [last])
    (hheader : ∀ t ∈ header, t.Ordinary) (hinner : ∀ t ∈ inner, t.Ordinary)
    (hopen : OpenBody inner) (hlast : last.kind = .endOfFile) :
    CutsBody file text header brace fs name ps us := by
  obtain ⟨hconstructs, hread⟩ := Awaiting.read_open hinner hopen hlast
  subst hus
  have hfaults := faults_behindBrace hts haccepted
  rw [hread, ← List.append_assoc] at hfaults
  have hsooner : (Awaiting.function.faults header ++ bodyFaults inner).countP
      Diagnostic.endsTooSoon = 0 := by
    refine List.countP_eq_zero.mpr fun d hd => Bool.eq_false_iff.mp ?_
    rcases List.mem_append.mp hd with hd | hd
    · exact Awaiting.function.endsTooSoon_faults (fun t ht => (hheader t ht).endOfFile) d hd
    · obtain ⟨run, -, hrun⟩ := List.mem_flatMap.mp hd
      exact endsTooSoon_classify run d hrun
  refine .unclosed (openBody_concat hopen fun hb => ?_) hlast
    (tree_behindBrace hts haccepted hstart ?_) hfaults ?_
  · simp [Token.isPunctuation, hlast] at hb
  · simpa using hconstructs
  · refine (countP_endsTooSoon (compile file text).diagnostics).symm.trans ?_
    rw [hfaults, List.countP_append, hsooner]
    rfl

end Brace

/-- The tokens of a body are cut at their semicolons up to the brace that closes it, wherever in a
text its opening brace is accepted. -/
theorem compile_cutsBody {header us : List Token} {brace : Token}
    (hts : significant (tokenize file text) = header ++ brace :: us)
    (haccepted : ((Awaiting.function.after header).respond brace).construct? =
      some (.body brace)) :
    ∃ (fs : List FunctionParts) (name : Token) (ps : List (Token × Token)),
      Awaiting.function.constructs header = fs.flatMap FunctionParts.constructs ++
        (⟨name, ps, none⟩ : FunctionParts).constructs ∧
      CutsBody file text header brace fs name ps us := by
  obtain ⟨hregion, hanswer⟩ := Awaiting.of_construct?_body haccepted
  have hbrace : brace.kind ≠ .endOfFile := by
    intro hend
    have hnext := Awaiting.next_respond_endOfFile hend (Awaiting.function.after header)
    rw [hanswer] at hnext
    simp [Response.accept] at hnext
  obtain ⟨init, last, hus, hlast, hheader, hinit⟩ := exists_init_body hts hbrace
  have hnone : Awaiting.function.region.Yielded [] := ⟨[], rfl⟩
  have hyielded := Awaiting.constructs_yielded hnone header
  rw [hregion, List.nil_append] at hyielded
  obtain ⟨fs, name, ps, hstart⟩ := hyielded
  refine ⟨fs, name, ps, hstart, ?_⟩
  rcases exists_closing init with hopen | ⟨inner, closing, rest, rfl, hopen, hstarts, hclosing⟩
  · exact cutsBody_unclosed hts haccepted hstart hus hheader hinit hopen hlast
  · rw [List.append_assoc] at hus
    exact cutsBody_closed hts haccepted hstart hus (List.forall_mem_append.mp hinit).1 hopen hstarts
      hclosing

/-- The runs of a body may hold braces and the keyword of a function. -/
theorem compile_cutsBody_nested :
    let text := "fun f()\x7bx = 1;\x7b \x7d fun;\x7dy"
    let ts := significant (tokenize "main.sls" text)
    let brace : Token := ⟨.punctuation, "\x7b", ⟨"main.sls", 1, 8, text⟩⟩
    ts = ts.take 4 ++ brace :: ts.drop 5 ∧
      ((Awaiting.function.after (ts.take 4)).respond brace).construct? = some (.body brace) ∧
      ∃ (fs : List FunctionParts) (name : Token) (ps : List (Token × Token)),
        Awaiting.function.constructs (ts.take 4) = fs.flatMap FunctionParts.constructs ++
          (⟨name, ps, none⟩ : FunctionParts).constructs ∧
        CutsBody "main.sls" text (ts.take 4) brace fs name ps (ts.drop 5) := by
  intro text ts brace
  have hts : ts = ts.take 4 ++ brace :: ts.drop 5 := by decide +kernel
  have haccepted : ((Awaiting.function.after (ts.take 4)).respond brace).construct? =
      some (.body brace) := by
    decide +kernel
  exact ⟨hts, haccepted, compile_cutsBody hts haccepted⟩

end Text

end SlsLang
