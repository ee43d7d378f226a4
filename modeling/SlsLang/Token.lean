namespace SlsLang

inductive TokenKind
  | identifier
  | keyword
  | operator
  | punctuation
  | endOfFile
  | character
  | string
  | double
  | float
  | int32
  | int64
  | boolean
  | comment
  | invalid
deriving DecidableEq, Repr

namespace TokenKind

/-- The name of a kind as reports print it. -/
def name : TokenKind → String
  | identifier => "Identifier"
  | keyword => "Keyword"
  | operator => "Operator"
  | punctuation => "Punctuation"
  | endOfFile => "EndOfFile"
  | character => "CharacterLiteral"
  | string => "StringLiteral"
  | double => "Double"
  | float => "Float"
  | int32 => "Int32"
  | int64 => "Int64"
  | boolean => "Boolean"
  | comment => "Comment"
  | invalid => "Invalid"

/-- Kinds of literal constants. -/
def isConstant : TokenKind → Bool
  | character | string | double | float | int32 | int64 | boolean => true
  | _ => false

end TokenKind

/-- Where a token starts, with the text of that line. Lines and columns count from 1, and a column
counts characters. -/
structure Place where
  file : String
  line : Nat
  column : Nat
  sourceLine : String
deriving DecidableEq, Repr

structure Token where
  kind : TokenKind
  text : String
  place : Place
deriving DecidableEq, Repr

namespace Token

def isPunctuation (t : Token) (text : String) : Bool := t.kind == .punctuation && t.text == text

def isOperator (t : Token) (text : String) : Bool := t.kind == .operator && t.text == text

def isKeyword (t : Token) (text : String) : Bool := t.kind == .keyword && t.text == text

def isIdentifier (t : Token) : Bool := t.kind == .identifier

/-- A name or a constant can stand as a value. -/
def isValue (t : Token) : Bool := t.kind == .identifier || t.kind.isConstant

def isEndOfFile (t : Token) : Bool := t.kind == .endOfFile

def isComment (t : Token) : Bool := t.kind == .comment

end Token

end SlsLang
