import SlsLang.Lexeme

namespace SlsLang

/-- The character an escape stands for. -/
def escaped? : Char → Option Char
  | 'n' => some '\n'
  | 't' => some '\t'
  | 'r' => some '\r'
  | '0' => some '\x00'
  | '\\' => some '\\'
  | '"' => some '"'
  | '\'' => some '\''
  | _ => none

/-- The value of a backslash and the character after it: an unknown escape stands for itself. -/
def unescape (c : Char) : List Char :=
  match escaped? c with
  | some d => [d]
  | none => ['\\', c]

/-- The slice read of a quoted constant, the value it stands for, and whether its quote was closed. -/
structure Quoted where
  slice : List Char
  value : List Char
  closed : Bool
deriving DecidableEq, Repr

/-- The contents of a string up to its closing quote or the end of its line. Slice and value so far
come latest first. -/
def stringContents (slice value : List Char) : List Char → Quoted
  | [] => ⟨slice.reverse, value.reverse, false⟩
  | '"' :: _ => ⟨('"' :: slice).reverse, value.reverse, true⟩
  | '\n' :: _ => ⟨slice.reverse, value.reverse, false⟩
  | ['\\'] => ⟨('\\' :: slice).reverse, ('\\' :: value).reverse, false⟩
  | '\\' :: '\n' :: _ => ⟨('\\' :: slice).reverse, ('\\' :: value).reverse, false⟩
  | '\\' :: c :: r => stringContents (c :: '\\' :: slice) ((unescape c).reverse ++ value) r
  | c :: r => stringContents (c :: slice) (c :: value) r

/-- A string constant from what follows its opening quote. -/
def stringConstant (r : List Char) : Lexeme :=
  let q := stringContents ['"'] [] r
  ⟨.string, q.slice, String.ofList q.value, if q.closed then [] else [.unterminatedString]⟩

/-- A character constant once its character is read: the closing quote has to follow. -/
def closeCharacter (spelling value rest : List Char) : Lexeme :=
  match rest with
  | '\'' :: _ => ⟨.character, '\'' :: spelling ++ ['\''], String.ofList value, []⟩
  | _ => ⟨.character, '\'' :: spelling, String.ofList value, [.unterminatedCharacter]⟩

/-- A character constant from what follows its opening quote. -/
def characterConstant : List Char → Lexeme
  | [] => ⟨.character, ['\''], "", [.endOfLineInCharacter]⟩
  | '\n' :: _ => ⟨.character, ['\''], "", [.endOfLineInCharacter]⟩
  | '\\' :: c :: r =>
    if c = '\n' then closeCharacter ['\\'] ['\\'] (c :: r)
    else closeCharacter ['\\', c] (unescape c) r
  | c :: r => closeCharacter [c] [c] r

end SlsLang
