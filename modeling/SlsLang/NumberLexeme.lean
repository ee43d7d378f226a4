import SlsLang.CharClass
import SlsLang.Lexeme

namespace SlsLang

/-- A quote starts a number when a digit follows that is not itself closed by a quote. -/
def startsSeparatedNumber : List Char → Bool
  | [] => false
  | d :: r => isDigit d && r.head? != some '\''

/-- A numeric constant while it is read: what it takes up so far, its text, what was found wrong with
it, and the marks it has. Slice, text and faults come latest first. -/
structure NumberScan where
  slice : List Char := []
  text : List Char := []
  faults : List LexicalFault := []
  floating : Bool := false
  floatSuffix : Bool := false
  longSuffix : Bool := false
  dangling : Bool := false
deriving DecidableEq, Repr

namespace NumberScan

/-- No separator may stand in front of a constant. -/
def separated : NumberScan := { slice := ['\''], faults := [.leadingSeparator] }

/-- A character of the text, behind which no separator has been read. -/
def push (s : NumberScan) (c : Char) : NumberScan :=
  { s with slice := c :: s.slice, text := c :: s.text, dangling := false }

/-- A point is one too many behind another mark. -/
def pushPoint (s : NumberScan) : NumberScan :=
  { s.push '.' with
    floating := true
    faults := if s.floating || s.longSuffix then .invalidFloatSuffix '.' :: s.faults else s.faults }

/-- One character on, unless the constant ends in front of it. Separators are no part of the text. -/
def step? (s : NumberScan) (c : Char) : Option NumberScan :=
  if c = '\'' then some { s with slice := c :: s.slice, dangling := true }
  else if c = ';' ∨ isWhitespace c = true then none
  else if c = '.' then some s.pushPoint
  else if c = 'f' ∨ c = 'F' then some { s.push c with floating := true, floatSuffix := true }
  else if c = 'l' ∨ c = 'L' then some { s.push c with longSuffix := true }
  else if isDigit c then some (s.push c)
  else none

def run (s : NumberScan) : List Char → NumberScan
  | [] => s
  | c :: r =>
    match s.step? c with
    | some next => next.run r
    | none => s

/-- The type of a constant is told by its marks alone, wherever they stand. -/
def kind (s : NumberScan) : TokenKind :=
  match s.floating, s.floatSuffix, s.longSuffix with
  | true, true, _ => .float
  | true, false, _ => .double
  | false, _, true => .int64
  | false, _, false => .int32

/-- What is read once a constant ends. No separator may be left at its end. -/
def lexeme (s : NumberScan) : Lexeme :=
  ⟨s.kind, s.slice.reverse, String.ofList s.text.reverse,
    (if s.dangling then .trailingSeparator :: s.faults else s.faults).reverse⟩

theorem slice_of_step? {s next : NumberScan} {c : Char} (h : s.step? c = some next) :
    next.slice = c :: s.slice := by
  unfold step? at h
  grind [push, pushPoint]

/-- A constant goes on with every character that one can be made of, and with no other. -/
theorem isSome_step? (s : NumberScan) (c : Char) : (s.step? c).isSome = isNumberChar c := by
  have hwhite : isWhitespace c = true → isNumberChar c = false := by
    intro h
    simp only [isWhitespace, whitespaceChars, List.contains_cons, List.contains_nil, beq_iff_eq,
      Bool.or_eq_true, Bool.or_false] at h
    rcases h with rfl | rfl | rfl | rfl | rfl | rfl <;> decide
  have hsemicolon : isNumberChar ';' = false := by decide
  unfold step?
  grind [isNumberChar, isNumberMark, isSuffix, suffixChars]

theorem slice_run (s : NumberScan) (cs : List Char) :
    (s.run cs).slice = (cs.takeWhile isNumberChar).reverse ++ s.slice := by
  induction cs generalizing s with
  | nil => rfl
  | cons c r ih =>
    have hsome := s.isSome_step? c
    cases hstep : s.step? c with
    | none =>
      rw [hstep, Option.isSome_none] at hsome
      simp [run, hstep, ← hsome]
    | some next =>
      rw [hstep, Option.isSome_some] at hsome
      simp [run, hstep, ← hsome, ih next, slice_of_step? hstep]

end NumberScan

/-- A numeric constant, from its first digit or the separator before it. -/
def numberConstant : List Char → Lexeme
  | '\'' :: r => (NumberScan.separated.run r).lexeme
  | cs => (NumberScan.run {} cs).lexeme

/-- A constant is as long as it can be. -/
theorem slice_numberConstant (cs : List Char) :
    (numberConstant cs).slice = cs.takeWhile isNumberChar := by
  unfold numberConstant
  split
  next r =>
    have hquote : isNumberChar '\'' = true := by decide
    simp [NumberScan.lexeme, NumberScan.slice_run, NumberScan.separated, hquote]
  next => simp [NumberScan.lexeme, NumberScan.slice_run]

end SlsLang
