import SlsLang.Diagnostic

namespace SlsLang

inductive Statement
  | declaration (name type : Token) (init? : Option Token)
  | assignment (target value : Token)
  | call (head : Token) (callee : String) (arguments : List Token)
deriving DecidableEq, Repr

/-- A statement, if the tokens made one, and what was found wrong with them. -/
structure Classified where
  statement? : Option Statement
  faults : List Diagnostic
deriving DecidableEq, Repr

def Token.blame (t : Token) (fault : SyntaxFault) : Diagnostic := ⟨.syntactic fault, t.place⟩

namespace Statement

/-- `var name : type` -/
def isDeclaration (var name colon type : Token) : Bool :=
  var.isKeyword "var" && name.isIdentifier && colon.isPunctuation ":" && type.isIdentifier

/-- The statements of a fixed shape: `var name : type`, the same with `= value`, and
`target = value`. -/
def ofShape? : List Token → Option Statement
  | [target, equals, value] =>
    if target.isIdentifier && equals.isOperator "=" && value.isValue then
      some (.assignment target value)
    else none
  | [var, name, colon, type] =>
    if isDeclaration var name colon type then some (.declaration name type none) else none
  | [var, name, colon, type, equals, value] =>
    if isDeclaration var name colon type && equals.isOperator "=" && value.isValue then
      some (.declaration name type (some value))
    else none
  | _ => none

end Statement

/-- What is recognized in a source text, piece by piece: the header of a function, its parameters,
the brace that opens its body, and the statements of that body. -/
inductive Construct
  | function (name : Token)
  | parameter (type name : Token)
  | body (brace : Token)
  | statement (statement : Statement)
deriving DecidableEq, Repr

/-- The name a construct declares. -/
def Construct.declared? : Construct → Option String
  | .function name => some name.text
  | .parameter _ name => some name.text
  | .statement (.declaration name _ _) => some name.text
  | _ => none

end SlsLang
