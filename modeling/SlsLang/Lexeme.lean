import SlsLang.Diagnostic

namespace SlsLang

/-- A token as it is spelled: the slice of the text it takes up, and what is read from that slice. -/
structure Lexeme where
  kind : TokenKind
  slice : List Char
  text : String
  faults : List LexicalFault
deriving DecidableEq, Repr

namespace Lexeme

/-- The end of the text takes up nothing. -/
def endOfFile : Lexeme := ⟨.endOfFile, [], "", []⟩

/-- A lexeme that is read as it is spelled. -/
def verbatim (kind : TokenKind) (slice : List Char) : Lexeme := ⟨kind, slice, String.ofList slice, []⟩

end Lexeme

def dropTrailingReturns (cs : List Char) : List Char := (cs.reverse.dropWhile (· == '\r')).reverse

/-- A comment up to the end of its line. Carriage returns before the line break are no part of its
text. -/
def lineComment (cs : List Char) : Lexeme :=
  let slice := cs.takeWhile (· != '\n')
  ⟨.comment, slice, String.ofList (dropTrailingReturns slice), []⟩

/-- The characters passed, latest first, and the text up to the end of its first `*/`. -/
def throughClose? (passed : List Char) : List Char → Option (List Char)
  | [] => none
  | '*' :: '/' :: _ => some (passed.reverse ++ ['*', '/'])
  | c :: r => throughClose? (c :: passed) r

/-- A block comment from what follows its opening `/*`; without a close it takes all that is left. -/
def blockComment (r : List Char) : Lexeme :=
  match throughClose? ['*', '/'] r with
  | some slice => .verbatim .comment slice
  | none => { Lexeme.verbatim .comment ('/' :: '*' :: r) with faults := [.unterminatedComment] }

theorem throughClose?_cons {c : Char} {passed r : List Char} (h : ¬ ∃ s, c = '*' ∧ r = '/' :: s) :
    throughClose? passed (c :: r) = throughClose? (c :: passed) r := by
  rw [throughClose?]
  rintro s rfl rfl
  exact h ⟨s, rfl, rfl⟩

end SlsLang
