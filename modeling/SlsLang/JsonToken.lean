import SlsLang.JsonString
import SlsLang.JsonValue

namespace SlsLang

inductive JsonToken
  | arrayStart
  | arrayEnd
  | objectStart
  | objectEnd
  | comma
  | colon
  | string (value : String)
  /-- A number, or one of the words for a value. -/
  | bare (value : JsonValue)
deriving Repr

def isJsonSpace (c : Char) : Bool := c == ' ' || c == '\t' || c == '\n' || c == '\r'

/-- The characters of numbers and words. -/
def isBareChar (c : Char) : Bool := isDigit c || isLetter c || c == '-' || c == '+' || c == '.'

namespace JsonToken

def ofMark? : Char → Option JsonToken
  | '[' => some arrayStart
  | ']' => some arrayEnd
  | '\x7b' => some objectStart
  | '\x7d' => some objectEnd
  | ',' => some comma
  | ':' => some colon
  | _ => none

/-- A word is one of three, and a number has to be in range. -/
def ofBare? (spelling : List Char) : Option JsonToken :=
  match String.ofList spelling with
  | "null" => some (bare .null)
  | "true" => some (bare (.boolean true))
  | "false" => some (bare (.boolean false))
  | _ =>
    match JsonNumber.ofSpelling? spelling with
    | some number => if number.inRange then some (bare (.number number)) else none
    | none => none

/-- The token that starts with `c`, and what follows it. -/
def next? (c : Char) (r : List Char) : Option (JsonToken × List Char) :=
  if c = '"' then
    match throughQuote? [] r with
    | some (raw, rest) =>
      (stringValue? [] none raw).map fun value => (string (String.ofList value), rest)
    | none => none
  else if isBareChar c then
    (ofBare? (c :: r.takeWhile isBareChar)).map fun token => (token, r.dropWhile isBareChar)
  else (ofMark? c).map fun token => (token, r)

theorem length_next? {c : Char} {r rest : List Char} {t : JsonToken}
    (h : next? c r = some (t, rest)) : rest.length ≤ r.length := by
  unfold next? at h
  split at h
  · split at h
    next hq =>
      obtain ⟨_, _, he⟩ := Option.map_eq_some_iff.mp h
      cases he
      exact Nat.le_of_lt (length_throughQuote? hq)
    next => simp at h
  split at h
  · obtain ⟨_, _, he⟩ := Option.map_eq_some_iff.mp h
    cases he
    exact (List.dropWhile_sublist isBareChar).length_le
  · obtain ⟨_, _, he⟩ := Option.map_eq_some_iff.mp h
    cases he
    exact Nat.le_refl _

theorem length_rest_next? {cs r rest : List Char} {c : Char} {t : JsonToken}
    (hc : cs.dropWhile isJsonSpace = c :: r) (ht : next? c r = some (t, rest)) :
    rest.length < cs.length := by
  have hle := (List.dropWhile_sublist isJsonSpace (l := cs)).length_le
  have := length_next? ht
  rw [hc, List.length_cons] at hle
  omega

/-- The tokens of a JSON text, after those already read, latest first. -/
def allAfter (done : List JsonToken) (cs : List Char) : Option (List JsonToken) :=
  match _ : cs.dropWhile isJsonSpace with
  | [] => some done.reverse
  | c :: r =>
    match _ : next? c r with
    | some (token, rest) => allAfter (token :: done) rest
    | none => none
termination_by cs.length
decreasing_by exact length_rest_next? (by assumption) (by assumption)

/-- The tokens of a JSON text. -/
def all? (cs : List Char) : Option (List JsonToken) := allAfter [] cs

end JsonToken

end SlsLang
