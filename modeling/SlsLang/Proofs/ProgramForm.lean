import SlsLang.Proofs.Outline
import SlsLang.Proofs.WrittenText

namespace SlsLang

structure NameForm where
  text : String
  wellFormed : isIdentifier text = true
  free : isKeyword text = false

/-- A number, string or character as it is spelled, one whole lexeme without fault. -/
structure LiteralForm where
  spelling : List Char
  whole : (nextLexeme spelling).slice = spelling
  constant : (nextLexeme spelling).kind.isConstant = true
  faultless : (nextLexeme spelling).faults = []

inductive ValueForm
  | name (name : NameForm)
  | literal (literal : LiteralForm)

inductive StatementForm
  | declaration (name type : NameForm) (init? : Option ValueForm)
  | assignment (target : NameForm) (value : ValueForm)
  | call (head : NameForm) (path : List NameForm) (arguments : List ValueForm)

structure ParameterForm where
  type : NameForm
  name : NameForm

structure FunctionForm where
  name : NameForm
  parameters : List ParameterForm
  statements : List StatementForm

def keywordLexeme (word : String) : Lexeme := ⟨.keyword, word.toList, word, []⟩

def markLexeme (c : Char) : Lexeme := .verbatim .punctuation [c]

def equalsLexeme : Lexeme := .verbatim .operator ['=']

def NameForm.lexeme (n : NameForm) : Lexeme := ⟨.identifier, n.text.toList, n.text, []⟩

def LiteralForm.lexeme (l : LiteralForm) : Lexeme := nextLexeme l.spelling

def ValueForm.lexeme : ValueForm → Lexeme
  | name n => n.lexeme
  | literal l => l.lexeme

/-- Items with one separator between any two of them. -/
def separated (separator : Lexeme) : List (List Lexeme) → List Lexeme
  | [] => []
  | item :: items => item ++ items.flatMap (separator :: ·)

def ParameterForm.lexemes (p : ParameterForm) : List Lexeme := [p.type.lexeme, p.name.lexeme]

/-- What is written for a statement before its semicolon. -/
def StatementForm.lexemes : StatementForm → List Lexeme
  | declaration name type init? =>
    keywordLexeme "var" :: name.lexeme :: markLexeme ':' :: type.lexeme ::
      init?.toList.flatMap fun value => [equalsLexeme, value.lexeme]
  | assignment target value => [target.lexeme, equalsLexeme, value.lexeme]
  | call head path arguments =>
    separated (markLexeme '.') ((head :: path).map fun n => [n.lexeme]) ++
      (markLexeme '(' :: separated (markLexeme ',') (arguments.map fun v => [v.lexeme]) ++
        [markLexeme ')'])

def FunctionForm.lexemes (f : FunctionForm) : List Lexeme :=
  [keywordLexeme "fun", f.name.lexeme, markLexeme '('] ++
    separated (markLexeme ',') (f.parameters.map ParameterForm.lexemes) ++
    [markLexeme ')', markLexeme '{'] ++
    f.statements.flatMap (fun s => s.lexemes ++ [markLexeme ';']) ++ [markLexeme '}']

/-- A node says of its token the kind and the text. -/
abbrev FormOutline := Outline SyntaxKind (TokenKind × String)

def Lexeme.content (l : Lexeme) : TokenKind × String := (l.kind, l.text)

def LiteralForm.nodeKind (l : LiteralForm) : SyntaxKind :=
  match l.lexeme.kind with
  | .string => .stringLiteral
  | .character => .characterLiteral
  | .float => .floatLiteral
  | .double => .doubleLiteral
  | .int64 => .int64Literal
  | _ => .int32Literal

def ValueForm.outline : ValueForm → FormOutline
  | name n => .node .declRefExpr n.lexeme.content n.text []
  | literal l => .node l.nodeKind l.lexeme.content l.lexeme.text []

def typeOutline (type : NameForm) : FormOutline := .node .typeRef type.lexeme.content type.text []

def ParameterForm.outline (p : ParameterForm) : FormOutline :=
  .node .paramVarDecl p.name.lexeme.content p.name.text [typeOutline p.type]

/-- The dotted name of what is called. -/
def dottedName (head : NameForm) (path : List NameForm) : String :=
  ".".intercalate ((head :: path).map NameForm.text)

def StatementForm.outline : StatementForm → FormOutline
  | declaration name type init? =>
    .node .declStatement name.lexeme.content "decl" [.node .varDecl name.lexeme.content name.text
      (typeOutline type :: init?.toList.map ValueForm.outline)]
  | assignment target value =>
    .node .assignment target.lexeme.content target.text [value.outline]
  | call head path arguments =>
    .node .callExpr head.lexeme.content (dottedName head path) (arguments.map ValueForm.outline)

def FunctionForm.outline (f : FunctionForm) : FormOutline :=
  .node .functionDecl f.name.lexeme.content f.name.text
    (f.parameters.map ParameterForm.outline ++
      [.node .compoundStatement (markLexeme '{').content "body"
        (f.statements.map StatementForm.outline)])

def StatementForm.declared? : StatementForm → Option String
  | declaration name _ _ => some name.text
  | _ => none

def FunctionForm.declared (f : FunctionForm) : List String :=
  f.name.text :: (f.parameters.map (·.name.text) ++ f.statements.filterMap StatementForm.declared?)

end SlsLang
