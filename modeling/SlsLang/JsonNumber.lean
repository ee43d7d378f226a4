import SlsLang.CharClass

namespace SlsLang

/-- A number of a JSON text: the digits before and after its point, and its exponent. -/
structure JsonNumber where
  negative : Bool
  whole : List Char
  fraction : List Char
  exponent : Int
deriving DecidableEq, Repr

def digitValue (c : Char) : Nat := c.toNat - '0'.toNat

def digitsValue (digits : List Char) : Nat :=
  digits.foldl (fun value d => 10 * value + digitValue d) 0

/-- Digits, and what follows them. There has to be a digit. -/
def digitsFirst? (cs : List Char) : Option (List Char × List Char) :=
  match cs.takeWhile isDigit with
  | [] => none
  | digits => some (digits, cs.dropWhile isDigit)

namespace JsonNumber

/-- Digits without a needless zero in front. -/
def whole? (cs : List Char) : Option (List Char × List Char) :=
  match digitsFirst? cs with
  | some ('0' :: _ :: _, _) => none
  | found => found

def fraction? : List Char → Option (List Char × List Char)
  | '.' :: r => digitsFirst? r
  | cs => some ([], cs)

def signed? (sign : Int) (cs : List Char) : Option (Int × List Char) :=
  (digitsFirst? cs).map fun (digits, r) => (sign * digitsValue digits, r)

def exponent? (cs : List Char) : Option (Int × List Char) :=
  match cs with
  | [] => some (0, [])
  | e :: r =>
    if e = 'e' ∨ e = 'E' then
      match r with
      | '-' :: r => signed? (-1) r
      | '+' :: r => signed? 1 r
      | r => signed? 1 r
    else some (0, cs)

/-- Reads a number that is spelled by all of `cs`. -/
def ofSpelling? (cs : List Char) : Option JsonNumber := do
  let (negative, cs) := match cs with
    | '-' :: r => (true, r)
    | cs => (false, cs)
  let (whole, cs) ← whole? cs
  let (fraction, cs) ← fraction? cs
  let (exponent, cs) ← exponent? cs
  if cs.isEmpty then some ⟨negative, whole, fraction, exponent⟩ else none

/-- Digits go into a significand up to the first that would make it `2 ^ 64` or more. -/
def significand (value : Nat) : List Char → Nat × List Char
  | [] => (value, [])
  | d :: ds =>
    if 10 * value + digitValue d < Nat.pow 2 64 then significand (10 * value + digitValue d) ds
    else (value, d :: ds)

/-- The nearest number with at most 53 binary digits before its zeros. A half goes to the even
neighbour. -/
def roundSignificant (n : Nat) : Nat :=
  let unit := Nat.pow 2 (n.log2 - 52)
  let quotient := n / unit
  let remainder := n % unit
  if unit < 2 * remainder ∨ (unit = 2 * remainder ∧ quotient % 2 = 1) then (quotient + 1) * unit
  else quotient * unit

/-- From here on a number is rounded to infinity. -/
def roundedToInfinity : Nat := Nat.pow 2 1024 - Nat.pow 2 970

/-- Whether a number is in the range of a double, where the significand and the power of ten are
rounded before they are multiplied. -/
def inRange (n : JsonNumber) : Bool :=
  let (whole, wholeLeft) := significand 0 n.whole
  let (digits, fractionLeft) := significand whole n.fraction
  let exponent : Int := n.exponent + wholeLeft.length + fractionLeft.length - n.fraction.length
  if digits = 0 ∨ exponent < 0 then true
  else if 308 < exponent then false
  else roundSignificant digits * roundSignificant (Nat.pow 10 exponent.toNat) < roundedToInfinity

end JsonNumber

end SlsLang
