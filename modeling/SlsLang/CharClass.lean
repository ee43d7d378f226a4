namespace SlsLang

/-- Space, tab, newline, carriage return, vertical tab and form feed separate tokens. -/
def whitespaceChars : List Char := [' ', '\t', '\n', '\r', '\x0b', '\x0c']

def operatorChars : List Char :=
  ['=', '+', '-', '*', '/', '%', '^', '!', '<', '>', '&', '|', '~', '?']

def punctuationChars : List Char := ['(', ')', '{', '}', '[', ']', ',', ':', ';', '.']

/-- Letters that change the type of a numeric constant. -/
def suffixChars : List Char := ['f', 'F', 'l', 'L']

def isWhitespace (c : Char) : Bool := whitespaceChars.contains c

def isOperator (c : Char) : Bool := operatorChars.contains c

def isPunctuation (c : Char) : Bool := punctuationChars.contains c

def isSuffix (c : Char) : Bool := suffixChars.contains c

def isDigit (c : Char) : Bool := '0' ≤ c && c ≤ '9'

def isLetter (c : Char) : Bool := ('a' ≤ c && c ≤ 'z') || ('A' ≤ c && c ≤ 'Z')

/-- The ASCII control characters: U+0000 to U+001F, and U+007F. -/
def isControl (c : Char) : Bool := c ≤ '\x1f' || c == '\x7f'

/-- A word runs as far as nothing ends it: whitespace, punctuation and operators do. -/
def isWordChar (c : Char) : Bool := !isWhitespace c && !isPunctuation c && !isOperator c

/-- The point or a suffix: whatever makes a constant more than a row of digits. -/
def isNumberMark (c : Char) : Bool := c == '.' || isSuffix c

/-- Digits, marks and the separator of digit groups make up a numeric constant. -/
def isNumberChar (c : Char) : Bool := isDigit c || isNumberMark c || c == '\''

theorem isNumberChar_of_isDigit {c : Char} (h : isDigit c = true) : isNumberChar c = true := by
  simp [isNumberChar, h]

end SlsLang
