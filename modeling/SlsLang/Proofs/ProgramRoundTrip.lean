import SlsLang.Compilation
import SlsLang.Proofs.ProgramRecognition
import SlsLang.Proofs.ProgramText

namespace SlsLang

open Outline

def Token.content (t : Token) : TokenKind × String := (t.kind, t.text)

section Images

variable (here : Place)

theorem forValue?_literal (l : LiteralForm) :
    SyntaxKind.forValue? l.lexeme.kind = some l.nodeKind := by
  have hc : l.lexeme.kind.isConstant = true := l.constant
  have hb : l.lexeme.kind ≠ .boolean := by
    intro hk
    obtain ⟨after, _, hp⟩ := nextLexeme_keptOn l.spelling
    rw [LiteralForm.lexeme] at hk
    rw [Lexeme.Promise, hk] at hp
    exact hp
  unfold LiteralForm.nodeKind
  cases hk : l.lexeme.kind <;> simp_all [SyntaxKind.forValue?, TokenKind.isConstant]

theorem valueOutlines_value (v : ValueForm) :
    mapAll Token.content (valueOutlines (v.lexeme.token here)) = [v.outline] := by
  cases v with
  | name n => rfl
  | literal l =>
    have hkind := forValue?_literal l
    simp only [valueOutlines, ValueForm.lexeme, Lexeme.token, hkind]
    rfl

theorem valueOutlines_values (vs : List ValueForm) :
    mapAll Token.content ((vs.map (·.lexeme.token here)).flatMap valueOutlines) =
      vs.map ValueForm.outline := by
  induction vs with
  | nil => rfl
  | cons v vs ih =>
    have hv := valueOutlines_value here v
    rw [mapAll_eq_map] at hv ih ⊢
    rw [List.map_cons, List.flatMap_cons, List.map_append, hv, ih]
    rfl

theorem outline_statement (s : StatementForm) :
    (s.statement here).outline.map Token.content = s.outline := by
  cases s with
  | declaration name type init? =>
    cases init? with
    | none => rfl
    | some value =>
      have hvalue := valueOutlines_values here [value]
      simp only [StatementForm.statement, Statement.outline, Option.map_some, Option.toList_some,
        map, mapAll, StatementForm.outline]
      rw [← hvalue]
      rfl
  | assignment target value =>
    have hvalue := valueOutlines_value here value
    simp only [StatementForm.statement, Statement.outline, map, hvalue, StatementForm.outline]
    rfl
  | call head path vs =>
    have hvalues := valueOutlines_values here vs
    simp only [StatementForm.statement, Statement.outline, map, hvalues, StatementForm.outline]
    rfl

theorem outline_parts (f : FunctionForm) :
    (f.parts here).outline.map Token.content = f.outline := by
  have hparameters : mapAll Token.content ((f.parts here).parameters.map fun p =>
      parameterOutline p.1 p.2) = f.parameters.map ParameterForm.outline := by
    rw [mapAll_eq_map, FunctionForm.parts, List.map_map, List.map_map]
    rfl
  have hstatements : mapAll Token.content ((f.statements.map (StatementForm.statement here)).map
      Statement.outline) = f.statements.map StatementForm.outline := by
    rw [mapAll_eq_map, List.map_map, List.map_map]
    apply List.map_congr_left
    intro s _
    exact outline_statement here s
  rw [mapAll_eq_map] at hparameters
  simp only [FunctionParts.outline, map, mapAll_eq_map, List.map_append, hparameters]
  simp only [FunctionForm.parts, Option.toList_some, List.map_cons, List.map_nil, map, hstatements]
  rfl

end Images

theorem declared_parts (here : Place) (f : FunctionForm) :
    (f.parts here).constructs.filterMap Construct.declared? = f.declared := by
  have hparameters : (f.parameters.map fun p => Construct.parameter (p.type.lexeme.token here)
      (p.name.lexeme.token here)).filterMap Construct.declared? =
        f.parameters.map (·.name.text) := by
    rw [List.filterMap_map]
    exact congrFun List.filterMap_eq_map f.parameters
  have hstatements : (f.statements.map fun s => Construct.statement (s.statement here)).filterMap
      Construct.declared? = f.statements.filterMap StatementForm.declared? := by
    rw [List.filterMap_map]
    apply List.filterMap_congr
    intro s _
    cases s <;> rfl
  have hconstructs : (f.parts here).constructs = .function (f.name.lexeme.token here) ::
      ((f.parameters.map fun p => Construct.parameter (p.type.lexeme.token here)
        (p.name.lexeme.token here)) ++ .body ((markLexeme '{').token here) ::
        f.statements.map fun s => Construct.statement (s.statement here)) := by
    simp [FunctionForm.parts, FunctionParts.constructs, Function.comp_def]
  have hname : (Construct.function (f.name.lexeme.token here)).declared? = some f.name.text := rfl
  have hbrace : (Construct.body ((markLexeme '{').token here)).declared? = none := rfl
  rw [hconstructs, List.filterMap_cons_some hname, List.filterMap_append, hparameters,
    List.filterMap_cons_none hbrace, hstatements, FunctionForm.declared]

theorem declaredSymbols_parts {file : String} {g : Place → Place} {here : Place}
    {cs : List Construct} {fs : List FunctionForm} (h : cs.map (Construct.relocate g) =
      (fs.map (FunctionForm.parts here)).flatMap FunctionParts.constructs) :
    declaredSymbols file cs =
      if fs.isEmpty then [] else [(fileStem file, fs.flatMap FunctionForm.declared)] := by
  have hnames : cs.filterMap Construct.declared? = fs.flatMap FunctionForm.declared := by
    have hmap := congrArg (List.filterMap Construct.declared?) h
    rw [List.filterMap_map, List.flatMap_map, List.filterMap_flatMap] at hmap
    simp only [declared_parts] at hmap
    rw [← hmap]
    apply List.filterMap_congr
    intro c _
    exact (declared?_relocate g c).symm
  rw [declaredSymbols, hnames]
  cases fs <;> rfl

theorem tree_of_relocate (file : String) {here : Place} {cs : List Construct}
    {parts : List FunctionParts} (h : cs.map (Construct.relocate fun _ => here) =
      parts.flatMap FunctionParts.constructs) :
    ((SyntaxBuilder.start (.empty 0) file).addAll cs).tree.mapPayload Token.content =
      (Outline.node .root (.endOfFile, "") "root"
        (parts.map fun f => f.outline.map Token.content)).forest 0 := by
  have hcontent : Token.content ∘ Token.relocate (fun _ => here) = Token.content := rfl
  rw [← hcontent, ← Forest.mapPayload_mapPayload, SyntaxBuilder.tree_relocate _ 0 file h, forest_map,
    map, mapAll_eq_map, List.map_map]
  rfl

/-- What is written for a program is compiled to the program: nothing is wrong with it, its tree is
the outline of the program node for node, and its names are declared in their order. -/
theorem compile_write (file : String) (fs : List FunctionForm) (s : Spacing) :
    let c := compile file (String.ofList (s.write (fs.flatMap FunctionForm.lexemes)))
    c.diagnostics = [] ∧ c.root = 0 ∧
    c.tree.mapPayload Token.content =
      (Outline.node .root (.endOfFile, "") "root" (fs.map FunctionForm.outline)).forest 0 ∧
    c.symbols = if fs.isEmpty then [] else [(fileStem file, fs.flatMap FunctionForm.declared)] := by
  intro c
  -- The tokens are moved to one place, whichever, and there they are those of the program.
  let here : Place := ⟨file, 1, 1, ""⟩
  obtain ⟨hlexemes, hdiagnostics⟩ := map_lexeme_readings_write file fs s
  have hend : Accepts .function [Lexeme.endOfFile.token here] [] .function := .pass rfl .nil
  have haccepts := (accepts_functions here fs).append hend
  rw [List.append_nil] at haccepts
  have htokens : (Lexer.start file (String.ofList
      (s.write (fs.flatMap FunctionForm.lexemes)))).readings.map
        (fun r => r.token.relocate fun _ => here) =
      (fs.flatMap FunctionForm.lexemes).map (Lexeme.token here) ++
        [Lexeme.endOfFile.token here] := by
    have hmap := congrArg (List.map (Lexeme.token here)) hlexemes
    rw [List.map_map, List.map_append] at hmap
    exact hmap
  obtain ⟨hconstructs, hnone⟩ := recognize_of_accepts hdiagnostics htokens haccepts
  refine ⟨hnone, SyntaxBuilder.root_addAll _ _, ?_, declaredSymbols_parts hconstructs⟩
  have htree := tree_of_relocate file hconstructs
  rw [List.map_map] at htree
  have houtlines : fs.map ((fun f => f.outline.map Token.content) ∘ FunctionForm.parts here) =
      fs.map FunctionForm.outline := by
    apply List.map_congr_left
    intro f _
    exact outline_parts here f
  rw [houtlines] at htree
  exact htree

example :
    let x : NameForm := ⟨"x", by decide, by decide⟩
    let t : NameForm := ⟨"t", by decide, by decide⟩
    let million : LiteralForm := ⟨"1'000'000".toList, by decide, by decide, by decide⟩
    let f : FunctionForm := ⟨x, [⟨t, x⟩, ⟨t, t⟩],
      [.declaration x t (some (.literal million)), .call x [t] [.name x, .name t]]⟩
    f.lexemes.map (String.ofList ·.slice) =
      ["fun", "x", "(", "t", "x", ",", "t", "t", ")", "\x7b", "var", "x", ":", "t", "=",
        "1'000'000", ";", "x", ".", "t", "(", "x", ",", "t", ")", ";", "\x7d"] := by
  decide

end SlsLang
