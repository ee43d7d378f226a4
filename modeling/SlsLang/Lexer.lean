import SlsLang.Lines
import SlsLang.NextLexeme

namespace SlsLang

/-- What one step of a lexer reads: the whitespace before a lexeme, the lexeme, and its place. -/
structure Reading where
  gap : List Char
  lexeme : Lexeme
  place : Place
deriving DecidableEq, Repr

namespace Reading

def token (r : Reading) : Token := ⟨r.lexeme.kind, r.lexeme.text, r.place⟩

/-- The faults of a lexeme are blamed on the place of its token. -/
def diagnostics (r : Reading) : List Diagnostic :=
  r.lexeme.faults.map fun fault => ⟨.lexical fault, r.place⟩

def isLast (r : Reading) : Bool := r.token.isEndOfFile

end Reading

/-- A reader of one source text. At the end of its text it stays there. -/
structure Lexer where
  file : String
  cursor : Cursor

namespace Lexer

def start (file text : String) : Lexer := ⟨file, .start text⟩

/-- The next reading, and the lexer past it. -/
def next (l : Lexer) : Reading × Lexer :=
  let gap := l.cursor.rest.takeWhile isWhitespace
  let cursor := l.cursor.skip gap.length
  let lexeme := nextLexeme cursor.rest
  (⟨gap, lexeme, l.file, cursor.line, cursor.column, cursor.lineText⟩,
    { l with cursor := cursor.skip lexeme.slice.length })

/-- What is passed over in front of a lexeme is the whitespace there. -/
theorem rest_skip_gap (c : Cursor) : (c.skip (c.rest.takeWhile isWhitespace).length).rest =
    c.rest.dropWhile isWhitespace := by
  have hwhole := List.takeWhile_append_dropWhile (p := isWhitespace) (l := c.rest)
  have hrest : (c.rest.takeWhile isWhitespace ++ c.rest.dropWhile isWhitespace).drop
      (c.rest.takeWhile isWhitespace).length = c.rest.dropWhile isWhitespace := List.drop_left
  rwa [hwhole, ← Cursor.rest_skip] at hrest

theorem next_lexeme (l : Lexer) :
    l.next.1.lexeme = nextLexeme (l.cursor.rest.dropWhile isWhitespace) := by
  simp [next, Cursor.rest_skip, ← rest_skip_gap]

theorem rest_next (l : Lexer) : l.next.2.cursor.rest =
    (l.cursor.rest.dropWhile isWhitespace).drop l.next.1.lexeme.slice.length := by
  simp [next, Cursor.rest_skip, ← rest_skip_gap]

/-- Until the end of the text is read, every step leaves less to read. -/
theorem length_rest_next {l : Lexer} (h : l.next.1.isLast = false) :
    l.next.2.cursor.rest.length < l.cursor.rest.length := by
  have hle := (List.dropWhile_sublist isWhitespace (l := l.cursor.rest)).length_le
  rw [rest_next, next_lexeme, List.length_drop]
  cases hc : l.cursor.rest.dropWhile isWhitespace with
  | nil => simp [Reading.isLast, Reading.token, next_lexeme, hc, nextLexeme, Lexeme.endOfFile,
      Token.isEndOfFile] at h
  | cons c r =>
    have hw : isWhitespace c = false := by
      have := List.head?_dropWhile_not isWhitespace l.cursor.rest
      simpa [hc] using this
    have hs := List.length_pos_iff.mpr (nextLexeme_slice_ne_nil (r := r) hw)
    simp only [hc, List.length_cons] at hle ⊢
    omega

/-- All readings from here to the end of the text, after those already made, latest first. -/
def readingsAfter (done : List Reading) (l : Lexer) : List Reading :=
  if l.next.1.isLast then (l.next.1 :: done).reverse
  else readingsAfter (l.next.1 :: done) l.next.2
termination_by l.cursor.rest.length
decreasing_by exact length_rest_next (Bool.eq_false_iff.mpr (by assumption))

/-- All readings from here on. The last of them, and no other, is the end of the text. -/
def readings (l : Lexer) : List Reading := l.readingsAfter []

theorem readingsAfter_last {l : Lexer} (done : List Reading) (h : l.next.1.isLast = true) :
    l.readingsAfter done = done.reverse ++ [l.next.1] := by
  rw [readingsAfter, if_pos h, List.reverse_cons]

theorem readingsAfter_step {l : Lexer} (done : List Reading) (h : l.next.1.isLast = false) :
    l.readingsAfter done = l.next.2.readingsAfter (l.next.1 :: done) := by
  rw [readingsAfter, if_neg (by simp [h])]

theorem readingsAfter_eq (done : List Reading) (l : Lexer) :
    l.readingsAfter done = done.reverse ++ l.readings := by
  cases h : l.next.1.isLast with
  | true => rw [readings, readingsAfter_last _ h, readingsAfter_last _ h]; rfl
  | false =>
    rw [readings, readingsAfter_step _ h, readingsAfter_step _ h,
      readingsAfter_eq (l.next.1 :: done), readingsAfter_eq [l.next.1]]
    simp
termination_by l.cursor.rest.length
decreasing_by all_goals exact length_rest_next h

theorem readings_eq (l : Lexer) :
    l.readings = if l.next.1.isLast then [l.next.1] else l.next.1 :: l.next.2.readings := by
  cases h : l.next.1.isLast with
  | true => rw [readings, readingsAfter_last _ h]; rfl
  | false => rw [readings, readingsAfter_step _ h, readingsAfter_eq]; rfl

end Lexer

/-- The tokens of a source text, the end of the text included. -/
def tokenize (file text : String) : List Token := (Lexer.start file text).readings.map Reading.token

end SlsLang
