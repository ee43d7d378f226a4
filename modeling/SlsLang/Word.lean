import SlsLang.CharClass
import SlsLang.Lexeme

namespace SlsLang

def keywords : List String :=
  ["if", "else", "while", "for", "return", "break", "continue", "true", "false", "null", "fun",
   "enum", "class", "import", "var", "module", "extern", "static"]

def isKeyword (word : String) : Bool := keywords.contains word

/-- The longest identifier has a leading character and 2048 more. -/
def maxIdentifierLength : Nat := 2049

def isIdentifierStart (c : Char) : Bool := c == '_' || isLetter c

def isIdentifierChar (c : Char) : Bool := c == '_' || isLetter c || isDigit c

/-- A letter or underscore, then letters, underscores and digits, up to the longest length. -/
def isIdentifier (word : String) : Bool :=
  match word.toList with
  | [] => false
  | c :: r => isIdentifierStart c && r.all isIdentifierChar && r.length < maxIdentifierLength

/-- A word is a keyword or an identifier; one that is neither is still taken for an identifier. -/
def wordLexeme (cs : List Char) : Lexeme :=
  let word := Lexeme.verbatim .identifier (cs.takeWhile isWordChar)
  if isKeyword word.text then { word with kind := .keyword }
  else if isIdentifier word.text then word
  else { word with faults := [.invalidIdentifier] }

end SlsLang
