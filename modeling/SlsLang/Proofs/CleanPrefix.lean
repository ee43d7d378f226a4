import SlsLang.Proofs.Acceptance
import SlsLang.Proofs.Graft
import SlsLang.Proofs.RecognitionRelocation
import SlsLang.Proofs.WholeLines

namespace SlsLang

open Outline

namespace Response

theorem pass_or_accept {r : Response} (h : r.faults = []) :
    r = .pass r.next ∨ ∃ k, r = .accept k r.next := by
  obtain ⟨next, construct?, faults⟩ := r
  cases construct? with
  | none => exact .inl (by simpa [pass] using h)
  | some k => exact .inr ⟨k, by simpa [accept] using h⟩

end Response

namespace Awaiting

/-- A body that is due behind a fault comes behind a fault only. -/
theorem next_respond_ne_body {a : Awaiting} {t : Token} (ha : a ≠ .body false)
    (h : (a.respond t).faults = []) : (a.respond t).next ≠ .body false := by
  unfold respond at h ⊢
  split
  next => exact ha
  next hc =>
    rw [if_neg hc] at h
    -- Whatever is due, the answers that make a body due so are refusals.
    cases a with
    | function | functionName | parameterList | firstParameter | nextParameter | parameterType
    | parameterName | body | statement =>
      simp only [respondTo, respondToType] at h ⊢
      grind [Response.pass, Response.accept, Response.refuse]

/-- The end of the text is taken without fault only where a function could start. -/
theorem eq_function_of_endOfFile {a : Awaiting} {t : Token} (ht : t.kind = .endOfFile)
    (ha : a ≠ .body false) (h : (a.respond t).faults = []) : a = .function := by
  obtain ⟨hend, hcomment, hname, hmark, -⟩ := Token.of_endOfFile ht
  cases a with
  | function => rfl
  | body listAccepted =>
    cases listAccepted with
    | false => exact (ha rfl).elim
    | true => simp [respond, respondTo, hcomment, hend, hmark, Response.refuse] at h
  | functionName | parameterList | firstParameter | nextParameter | parameterType | parameterName
  | statement =>
    simp [respond, respondTo, respondToType, hcomment, hend, hname, hmark, Response.refuse] at h

theorem respond_function_endOfFile {t : Token} (ht : t.kind = .endOfFile) :
    Awaiting.function.respond t = .pass .function := by
  obtain ⟨-, hcomment, -, -, hword⟩ := Token.of_endOfFile ht
  simp [respond, respondTo, hcomment, hword, ht]

end Awaiting

namespace Accepts

variable {a b : Awaiting} {cs : List Construct}

theorem after_eq {ts : List Token} (h : Accepts a ts cs b) : a.after ts = b := by
  induction h with
  | nil => rfl
  | pass answer _ ih | accept answer _ ih =>
    rw [Awaiting.after_cons, answer]
    exact ih

theorem constructs_append {ts : List Token} (h : Accepts a ts cs b) (us : List Token) :
    a.constructs (ts ++ us) = cs ++ b.constructs us := by
  rw [Awaiting.constructs_append, h.after_eq, Awaiting.constructs, h.responses.1]

theorem blamed_append {rs : List Reading} (h : Accepts a (rs.map Reading.token) cs b)
    (hd : ∀ r ∈ rs, r.diagnostics = []) (more : List Reading) :
    blamed a (rs ++ more) = blamed b more := by
  induction rs generalizing a cs with
  | nil =>
    cases h
    rfl
  | cons r rs ih =>
    obtain ⟨hr, hrs⟩ := List.forall_mem_cons.mp hd
    rw [List.cons_append, blamed_cons, hr]
    cases h with
    | pass answer tail | accept answer tail =>
      rw [answer]
      exact ih tail hrs

end Accepts

/-- Where nothing is wrong with a text up to its end, no function is under way there. -/
theorem accepts_of_blamed {a : Awaiting} {init : List Reading} {last : Reading}
    (h : blamed a (init ++ [last]) = []) (ha : a ≠ .body false) (hlast : last.isLast = true) :
    (∀ r ∈ init, r.diagnostics = []) ∧ Accepts a (init.map Reading.token)
      (a.constructs ((init ++ [last]).map Reading.token)) .function := by
  have hend := (Reading.isLast_iff last).mp hlast
  -- The end of the text has no fault only between functions, or where a fault stands before it, and
  -- the readings before it are all answered without fault.
  induction init generalizing a with
  | nil =>
    rw [List.nil_append, blamed_singleton] at h
    obtain rfl := Awaiting.eq_function_of_endOfFile hend ha (List.append_eq_nil_iff.mp h).2
    refine ⟨by simp, ?_⟩
    rw [List.nil_append, List.map_singleton, Awaiting.constructs_singleton,
      Awaiting.respond_function_endOfFile hend]
    exact .nil
  | cons r init ih =>
    rw [List.cons_append, blamed_cons] at h
    obtain ⟨hhead, htail⟩ := List.append_eq_nil_iff.mp h
    obtain ⟨hspelling, hfaults⟩ := List.append_eq_nil_iff.mp hhead
    obtain ⟨hinit, haccepts⟩ := ih htail (Awaiting.next_respond_ne_body ha hfaults)
    refine ⟨List.forall_mem_cons.mpr ⟨hspelling, hinit⟩, ?_⟩
    rw [List.cons_append, List.map_cons, List.map_cons, Awaiting.constructs_cons]
    rcases Response.pass_or_accept hfaults with hpass | ⟨k, haccept⟩
    · rw [hpass]
      exact .pass hpass haccepts
    · rw [haccept]
      exact .accept haccept haccepts

theorem blamed_readingsBehind (gap : List Char) (a : Awaiting) (rs : List Reading) :
    blamed a (readingsBehind gap rs) = blamed a rs := by
  cases rs with
  | nil => rfl
  | cons r rs =>
    rw [readingsBehind, blamed_cons, blamed_cons]
    rfl

theorem faults_eq_nil_of_clean {rs : List Reading} (h : (recognize rs).diagnostics = []) :
    ∀ r ∈ rs, r.lexeme.faults = [] := by
  intro r hr
  have hspelling := (filter_blamed .function rs).1
  rw [show blamed .function rs = [] from h, List.filter_nil] at hspelling
  exact List.map_eq_nil_iff.mp (List.flatMap_eq_nil_iff.mp hspelling.symm r hr)

/-- Behind whole lines with which nothing is wrong, constructs and faults are those of the rest. -/
theorem recognize_append_lines (file : String) {a b : String} (hlines : WholeLines a.toList)
    (hclean : (recognize (Lexer.start file a).readings).diagnostics = [])
    (hmark : b.toList.head? ≠ some '\ufeff') :
    let down := Place.down (a.toList.count '\n')
    let ra := recognize (Lexer.start file a).readings
    let rb := recognize (Lexer.start file b).readings
    let r := recognize (Lexer.start file (a ++ b)).readings
    r.constructs = ra.constructs ++ rb.constructs.map (Construct.relocate down) ∧
      r.diagnostics = rb.diagnostics.map (Diagnostic.relocate down) := by
  intro down ra rb r
  have hopen : ∀ x ∈ (Lexer.start file a).readings, .unterminatedComment ∉ x.lexeme.faults :=
    fun x hx => by simp [faults_eq_nil_of_clean hclean x hx]
  obtain ⟨init, last, gap, ha, hlast, -, hreadings⟩ :=
    readings_append_lines file hlines hopen hmark
  have hblamed : blamed .function (init ++ [last]) = [] := ha ▸ hclean
  obtain ⟨hspelling, haccepts⟩ := accepts_of_blamed hblamed (by simp) hlast
  rw [← ha] at haccepts
  let moved := (Lexer.start file b).readings.map (Reading.relocate down)
  have hmoved : recognize moved = rb.relocate down := (moves_relocate down).recognize _
  have hr : r = recognize (init ++ readingsBehind gap moved) := congrArg recognize hreadings
  constructor
  · calc r.constructs
      _ = Awaiting.function.constructs (init.map Reading.token ++ moved.map Reading.token) := by
          rw [hr, ← map_token_readingsBehind gap moved, ← List.map_append]
          rfl
      _ = ra.constructs ++ (recognize moved).constructs := haccepts.constructs_append _
      _ = ra.constructs ++ rb.constructs.map (Construct.relocate down) := by
          rw [hmoved]
          rfl
  · calc r.diagnostics
      _ = blamed .function (init ++ readingsBehind gap moved) := by
          rw [hr]
          rfl
      _ = (recognize moved).diagnostics := by
          rw [haccepts.blamed_append hspelling, blamed_readingsBehind]
          rfl
      _ = rb.diagnostics.map (Diagnostic.relocate down) := by
          rw [hmoved]
          rfl

/-- The names of two tables, module by module. -/
def SymbolTable.merge (s t : SymbolTable) : SymbolTable :=
  s.map (fun (m, names) => (m, names ++ (t.lookup m).getD [])) ++
    t.filter fun (m, _) => (s.lookup m).isNone

theorem declaredSymbols_append (file : String) (cs ds : List Construct) :
    declaredSymbols file (cs ++ ds) =
      (declaredSymbols file cs).merge (declaredSymbols file ds) := by
  unfold declaredSymbols
  rw [List.filterMap_append]
  cases cs.filterMap Construct.declared? with
  | nil =>
    rw [List.nil_append]
    cases ds.filterMap Construct.declared? <;> simp [SymbolTable.merge]
  | cons name names =>
    cases ds.filterMap Construct.declared? <;> simp [SymbolTable.merge]

/-- A text behind whole lines with which nothing is wrong is compiled as it would be alone, so many
lines further down, and what comes of it comes after what came of those lines. -/
theorem compile_append_lines (file : String) {a b : String} (hlines : WholeLines a.toList)
    (hclean : (compile file a).diagnostics = []) (hmark : b.toList.head? ≠ some '\ufeff') :
    let down := Place.down (a.toList.count '\n')
    let ca := compile file a
    let cb := compile file b
    let c := compile file (a ++ b)
    (ca.root = 0 ∧ cb.root = 0 ∧ c.root = 0) ∧
    c.tree = ca.tree.graft (cb.tree.mapPayload (Token.relocate down)) ∧
    c.symbols = ca.symbols.merge cb.symbols ∧
    c.notices = ca.notices ++ cb.notices ∧
    c.diagnostics = cb.diagnostics.map (Diagnostic.relocate down) := by
  intro down ca cb c
  obtain ⟨hconstructs, hdiagnostics⟩ := recognize_append_lines file hlines hclean hmark
  have hroot : ∀ text, (compile file text).root = 0 := fun _ => SyntaxBuilder.root_addAll _ _
  refine ⟨⟨hroot a, hroot b, hroot (a ++ b)⟩, ?_, ?_, ?_, hdiagnostics⟩
  · obtain ⟨fs, -, hfs⟩ := exists_functions (Lexer.start file a).readings
    obtain ⟨more, -, hmore⟩ :=
      exists_functions ((Lexer.start file b).readings.map (Reading.relocate down))
    rw [(moves_relocate down).recognize] at hmore
    change (recognize (Lexer.start file b).readings).constructs.map (Construct.relocate down) = _
      at hmore
    have hstart := SyntaxBuilder.atRoot_start 0 file
    have htree : c.tree = ((SyntaxBuilder.start (.empty 0) file).addAll
        ((fs ++ more).flatMap FunctionParts.constructs)).tree := by
      rw [List.flatMap_append, ← hfs, ← hmore, ← hconstructs]
      rfl
    have htreeA : ca.tree = ((SyntaxBuilder.start (.empty 0) file).addAll
        (fs.flatMap FunctionParts.constructs)).tree := by
      rw [← hfs]
      rfl
    have htreeB : cb.tree.mapPayload (Token.relocate down) = _ :=
      SyntaxBuilder.tree_relocate down 0 file hmore
    rw [htree, htreeA, htreeB, hstart.tree_eq_forest, hstart.tree_eq_forest, graft_forest,
      List.map_append]
  · calc c.symbols
      _ = declaredSymbols file (recognize (Lexer.start file (a ++ b)).readings).constructs := rfl
      _ = ca.symbols.merge cb.symbols := by
          rw [hconstructs, declaredSymbols_append, declaredSymbols_relocate]
          rfl
  · calc c.notices
      _ = unlines ((recognize (Lexer.start file (a ++ b)).readings).constructs.flatMap
            Construct.notices) := notices_compileInto 0 file (a ++ b)
      _ = ca.notices ++ cb.notices := by
          rw [hconstructs, List.flatMap_append, flatMap_notices_relocate, unlines_append,
            ← notices_compileInto 0 file a, ← notices_compileInto 0 file b]
          rfl

/-- A function with a body, and behind it text that breaks off in a second function. -/
theorem compile_append_lines_brokenOff :
    let a := "fun f(int x) \x7b\r\n  g(x); // \"\r\n\x7d\r\n"
    let b := "fun h(int) \x7b var y : t = 'q;"
    WholeLines a.toList ∧ (compile "main.sls" a).diagnostics = [] ∧
    b.toList.head? ≠ some '\ufeff' ∧
    let down := Place.down 3
    let ca := compile "main.sls" a
    let cb := compile "main.sls" b
    let c := compile "main.sls" (a ++ b)
    (ca.root = 0 ∧ cb.root = 0 ∧ c.root = 0) ∧
    c.tree = ca.tree.graft (cb.tree.mapPayload (Token.relocate down)) ∧
    c.symbols = ca.symbols.merge cb.symbols ∧
    c.notices = ca.notices ++ cb.notices ∧
    c.diagnostics = cb.diagnostics.map (Diagnostic.relocate down) := by
  intro a b
  have hlines : WholeLines a.toList := .inr (by decide)
  have hclean : (compile "main.sls" a).diagnostics = [] := by decide +kernel
  have hmark : b.toList.head? ≠ some '\ufeff' := by decide
  have hcount : a.toList.count '\n' = 3 := by decide
  have happended := compile_append_lines "main.sls" hlines hclean hmark
  rw [hcount] at happended
  exact ⟨hlines, hclean, hmark, happended⟩

end SlsLang
