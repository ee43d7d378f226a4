import SlsLang.Proofs.FunctionGrammar
import SlsLang.Proofs.ProgramStatement
import SlsLang.Proofs.SyntaxOutline

namespace SlsLang

open Awaiting

section Tokens

variable (here : Place)

theorem respond_semicolon {run : List Token} {statement : Statement}
    (h : classify run.reverse = ⟨some statement, []⟩) :
    (Awaiting.statement run).respond ((markLexeme ';').token here) =
      .accept (.statement statement) (.statement []) := by
  rw [respond_statement_semicolon rfl, h]
  rfl

theorem accepts_statement (s : StatementForm) :
    Accepts (.statement []) ((s.lexemes ++ [markLexeme ';']).map (Lexeme.token here))
      [.statement (s.statement here)] (.statement []) := by
  have hspells := spells_statement here s
  have hrun := accepts_run hspells.inner []
  have hclassify : classify ((s.lexemes.map (Lexeme.token here)).reverse ++ []).reverse =
      ⟨some (s.statement here), []⟩ := by
    rw [List.append_nil, List.reverse_reverse, hspells.classify]
  have hend := Accepts.accept (respond_semicolon here hclassify) .nil
  rw [List.map_append]
  exact hrun.append hend

theorem accepts_statements (ss : List StatementForm) :
    Accepts (.statement []) ((ss.flatMap fun s => s.lexemes ++ [markLexeme ';']).map
      (Lexeme.token here)) (ss.map fun s => .statement (s.statement here)) (.statement []) := by
  induction ss with
  | nil => exact .nil
  | cons s ss ih =>
    rw [List.flatMap_cons, List.map_append]
    exact (accepts_statement here s).append ih

def ParameterForm.construct (p : ParameterForm) : Construct :=
  .parameter (p.type.lexeme.token here) (p.name.lexeme.token here)

theorem accepts_next_parameters (ps : List ParameterForm) :
    Accepts .nextParameter ((ps.flatMap fun p => markLexeme ',' :: p.lexemes).map
      (Lexeme.token here)) (ps.map (ParameterForm.construct here)) .nextParameter := by
  induction ps with
  | nil => exact .nil
  | cons p ps ih => exact .pass rfl (.pass rfl (.accept rfl ih))

theorem accepts_parameters (ps : List ParameterForm) :
    Accepts .firstParameter ((separated (markLexeme ',') (ps.map ParameterForm.lexemes) ++
      [markLexeme ')']).map (Lexeme.token here)) (ps.map (ParameterForm.construct here))
      (.body true) := by
  cases ps with
  | nil => exact .pass rfl .nil
  | cons p ps =>
    have hclose : Accepts .nextParameter ([markLexeme ')'].map (Lexeme.token here)) []
        (.body true) := .pass rfl .nil
    have hnext := (accepts_next_parameters here ps).append hclose
    rw [List.append_nil, ← List.map_append] at hnext
    rw [List.map_cons, separated, List.flatMap_map, List.append_assoc, List.map_append]
    exact .pass rfl (.accept rfl hnext)

def FunctionForm.parts (f : FunctionForm) : FunctionParts :=
  ⟨f.name.lexeme.token here,
    f.parameters.map fun p => (p.type.lexeme.token here, p.name.lexeme.token here),
    some ((markLexeme '{').token here, f.statements.map (StatementForm.statement here))⟩

theorem accepts_function (f : FunctionForm) :
    Accepts .function (f.lexemes.map (Lexeme.token here)) (f.parts here).constructs .function := by
  have hhead : Accepts .function ([keywordLexeme "fun", f.name.lexeme, markLexeme '('].map
      (Lexeme.token here)) [.function (f.name.lexeme.token here)] .firstParameter :=
    .pass rfl (.accept rfl (.pass rfl .nil))
  have hparameters := accepts_parameters here f.parameters
  have hbrace : Accepts (.body true) ([markLexeme '{'].map (Lexeme.token here))
      [.body ((markLexeme '{').token here)] (.statement []) := .accept rfl .nil
  have hstatements := accepts_statements here f.statements
  have hend : Accepts (.statement []) ([markLexeme '}'].map (Lexeme.token here)) [] .function :=
    .pass rfl .nil
  have hconstruct : ParameterForm.construct here =
      fun p => .parameter (p.type.lexeme.token here) (p.name.lexeme.token here) := rfl
  have hall := (((hhead.append hparameters).append hbrace).append hstatements).append hend
  simpa [FunctionForm.lexemes, FunctionForm.parts, FunctionParts.constructs,
    hconstruct, Function.comp_def] using hall

/-- Functions as they are written are taken without fault, and all of them are recognized. -/
theorem accepts_functions (fs : List FunctionForm) :
    Accepts .function ((fs.flatMap FunctionForm.lexemes).map (Lexeme.token here))
      ((fs.map (FunctionForm.parts here)).flatMap FunctionParts.constructs) .function := by
  induction fs with
  | nil => exact .nil
  | cons f fs ih =>
    rw [List.flatMap_cons, List.map_append, List.map_cons, List.flatMap_cons]
    exact (accepts_function here f).append ih

end Tokens

end SlsLang
