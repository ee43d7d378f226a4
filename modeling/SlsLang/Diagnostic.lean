import SlsLang.Lines
import SlsLang.Token

namespace SlsLang

/-- What can be wrong with the spelling of a token. -/
inductive LexicalFault
  | unterminatedComment
  | unterminatedString
  | unterminatedCharacter
  | endOfLineInCharacter
  | invalidIdentifier
  | leadingSeparator
  | trailingSeparator
  | invalidFloatSuffix (mark : Char)
deriving DecidableEq, Repr

/-- What can be wrong with the order of tokens. -/
inductive SyntaxFault
  | expectedFunctionName
  | expectedLeftParenthesis
  | expectedRightParenthesis
  | expectedLeftBrace
  | expectedParameterType
  | expectedParameterName
  | expectedComma
  | expectedStatement
  | unexpectedEndOfFile
  | unexpectedPunctuation
  | expectedOpenParenthesis
  | expectedCloseParenthesis
  | unexpectedInvalidToken
deriving DecidableEq, Repr

inductive Fault
  | lexical (fault : LexicalFault)
  | syntactic (fault : SyntaxFault)
deriving DecidableEq, Repr

def LexicalFault.message : LexicalFault → String
  | unterminatedComment => "unterminated comment"
  | unterminatedString => "unterminated string literal"
  | unterminatedCharacter => "unterminated character constant"
  | endOfLineInCharacter => "unexpected end of line in character constant"
  | invalidIdentifier => "invalid identifier name"
  | leadingSeparator => "leading separators are not allowed"
  | trailingSeparator => "trailing separators are not allowed"
  | invalidFloatSuffix mark => "invalid suffix '" ++ mark.toString ++ "' in floating constant"

def SyntaxFault.message : SyntaxFault → String
  | expectedFunctionName => "expected function name"
  | expectedLeftParenthesis => "expected left parenthesis"
  | expectedRightParenthesis => "expected right parenthesis"
  | expectedLeftBrace => "expected left brace"
  | expectedParameterType => "expected parameter type"
  | expectedParameterName => "expected parameter name"
  | expectedComma => "expected comma"
  | expectedStatement => "expected statement"
  | unexpectedEndOfFile => "unexpected end of file"
  | unexpectedPunctuation => "unexpected punctuation"
  | expectedOpenParenthesis => "expected open parenthesis"
  | expectedCloseParenthesis => "expected close parenthesis"
  | unexpectedInvalidToken => "unexpected invalid token"

def Fault.message : Fault → String
  | lexical fault => fault.message
  | syntactic fault => fault.message

def Place.text (p : Place) : String :=
  p.file ++ ":" ++ toString p.line ++ ":" ++ toString p.column

/-- A fault and the place it is blamed on. -/
structure Diagnostic where
  fault : Fault
  place : Place
deriving DecidableEq, Repr

namespace Diagnostic

def message (d : Diagnostic) : String := d.fault.message

def header (d : Diagnostic) : String := d.place.text ++ ": error: " ++ d.message

/-- A caret under the column of the place. -/
def caretLine (d : Diagnostic) : String :=
  String.ofList (List.replicate (d.place.column - 1) ' ') ++ "^"

/-- The header, the source line as it stands, and the caret. -/
def lines (d : Diagnostic) : List String := [d.header, d.place.sourceLine, d.caretLine]

/-- Three lines for every diagnostic, in the order they were recorded. -/
def render (ds : List Diagnostic) : String := unlines (ds.flatMap lines)

end Diagnostic

end SlsLang
