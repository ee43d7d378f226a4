namespace SlsLang

/-- Every line followed by a newline. -/
def unlines (lines : List String) : String := String.join (lines.map (· ++ "\n"))

theorem toList_unlines (lines : List String) :
    (unlines lines).toList = lines.flatMap (fun l => l.toList ++ ['\n']) := by
  simp [unlines, String.toList_join, List.flatMap_map]

theorem unlines_append (xs ys : List String) : unlines (xs ++ ys) = unlines xs ++ unlines ys := by
  apply String.toList_injective
  simp [toList_unlines]

/-- Drops one carriage return from the end. -/
def dropReturn (cs : List Char) : List Char := if cs.getLast? = some '\r' then cs.dropLast else cs

/-- The line at the head of a text, without its line break. A carriage return belongs to the break
only when a newline follows it. -/
def firstLine (cs : List Char) : List Char :=
  let line := cs.takeWhile (· != '\n')
  if (cs.dropWhile (· != '\n')).isEmpty then line else dropReturn line

/-- The text still to be read, with the position of its first character and the text of the line it
stands on. -/
structure Cursor where
  rest : List Char
  line : Nat
  column : Nat
  lineText : String

namespace Cursor

/-- The first character of a text, past one byte order mark. -/
def start (text : String) : Cursor :=
  let cs := match text.toList with
    | '\ufeff' :: r => r
    | cs => cs
  ⟨cs, 1, 1, String.ofList (firstLine cs)⟩

/-- One character on. Only a newline starts another line. -/
def advance (c : Cursor) : Cursor :=
  match c.rest with
  | [] => c
  | '\n' :: r => ⟨r, c.line + 1, 1, String.ofList (firstLine r)⟩
  | _ :: r => { c with rest := r, column := c.column + 1 }

def skip : Nat → Cursor → Cursor
  | 0, c => c
  | n + 1, c => skip n c.advance

theorem rest_advance (c : Cursor) : c.advance.rest = c.rest.drop 1 := by
  unfold advance
  split <;> simp_all

theorem rest_skip (n : Nat) (c : Cursor) : (skip n c).rest = c.rest.drop n := by
  induction n generalizing c with
  | zero => rfl
  | succ n ih => rw [skip, ih, rest_advance, List.drop_drop, Nat.add_comm]

end Cursor

end SlsLang
