import SlsLang.Forest
import SlsLang.Token

namespace SlsLang

inductive SyntaxKind
  | root
  | functionDecl
  | paramVarDecl
  | compoundStatement
  | declStatement
  | varDecl
  | typeRef
  | assignment
  | callExpr
  | declRefExpr
  | stringLiteral
  | floatLiteral
  | doubleLiteral
  | int32Literal
  | int64Literal
  | characterLiteral
  | booleanLiteral
deriving DecidableEq, Repr

namespace SyntaxKind

/-- The name of a kind as a dump prints it. -/
def name : SyntaxKind → String
  | root => "Root"
  | functionDecl => "FunctionDecl"
  | paramVarDecl => "ParamVarDecl"
  | compoundStatement => "CompoundStatement"
  | declStatement => "DeclStatement"
  | varDecl => "VarDecl"
  | typeRef => "TypeRef"
  | assignment => "Assignment"
  | callExpr => "CallExpr"
  | declRefExpr => "DeclRefExpr"
  | stringLiteral => "StringLiteral"
  | floatLiteral => "FloatLiteral"
  | doubleLiteral => "DoubleLiteral"
  | int32Literal => "Int32Literal"
  | int64Literal => "Int64Literal"
  | characterLiteral => "CharacterLiteral"
  | booleanLiteral => "BooleanLiteral"

/-- The kind of node that stands for a token used as a value. -/
def forValue? : TokenKind → Option SyntaxKind
  | .identifier => some declRefExpr
  | .string => some stringLiteral
  | .float => some floatLiteral
  | .double => some doubleLiteral
  | .int32 => some int32Literal
  | .int64 => some int64Literal
  | .character => some characterLiteral
  | .boolean => some booleanLiteral
  | _ => none

def isLiteral : SyntaxKind → Bool
  | stringLiteral | floatLiteral | doubleLiteral | int32Literal | int64Literal | characterLiteral
  | booleanLiteral => true
  | _ => false

/-- A value is a literal or the name of a variable. -/
def isValue (kind : SyntaxKind) : Bool := kind.isLiteral || kind == declRefExpr

end SyntaxKind

/-- Every token that may stand as a value has a kind of node. -/
theorem isSome_forValue? (t : Token) : (SyntaxKind.forValue? t.kind).isSome = t.isValue := by
  unfold Token.isValue
  cases t.kind <;> rfl

/-- A node carries the token that it was made from. -/
abbrev SyntaxNode := Node SyntaxKind Token

abbrev SyntaxTree := Forest SyntaxKind Token

end SlsLang
