namespace SlsLang

/-- The value of a hexadecimal digit. -/
def hexValue? (c : Char) : Option Nat :=
  if '0' ≤ c ∧ c ≤ '9' then some (c.toNat - '0'.toNat)
  else if 'a' ≤ c ∧ c ≤ 'f' then some (c.toNat - 'a'.toNat + 10)
  else if 'A' ≤ c ∧ c ≤ 'F' then some (c.toNat - 'A'.toNat + 10)
  else none

/-- The value of hexadecimal digits, the highest first. -/
def hexDigits? (cs : List Char) : Option Nat :=
  cs.foldlM (fun value c => (hexValue? c).map (16 * value + ·)) 0

def isHighSurrogate (unit : Nat) : Bool := 0xd800 ≤ unit && unit < 0xdc00

def isLowSurrogate (unit : Nat) : Bool := 0xdc00 ≤ unit && unit < 0xe000

/-- The character that two surrogates stand for. -/
def surrogatePair (high low : Nat) : Char :=
  Char.ofNat (0x10000 + (high - 0xd800) * 0x400 + (low - 0xdc00))

/-- The character of an escape with one letter. -/
def jsonEscape? : Char → Option Char
  | '"' => some '"'
  | '\\' => some '\\'
  | '/' => some '/'
  | 'b' => some '\x08'
  | 'f' => some '\x0c'
  | 'n' => some '\n'
  | 'r' => some '\r'
  | 't' => some '\t'
  | _ => none

/-- The part of a JSON string between its quotes, up to the closing one, and what follows that. The
characters already passed come latest first. -/
def throughQuote? (passed : List Char) : List Char → Option (List Char × List Char)
  | [] => none
  | '"' :: r => some (passed.reverse, r)
  | '\\' :: c :: r => throughQuote? (c :: '\\' :: passed) r
  | c :: r => throughQuote? (c :: passed) r

/-- The characters a JSON string stands for, after those already read, latest first. A high
surrogate is kept until the low one follows it. A control character has to be escaped. -/
def stringValue? (done : List Char) (high? : Option Nat) : List Char → Option (List Char)
  | [] => if high?.isSome then none else some done.reverse
  | '\\' :: 'u' :: a :: b :: c :: d :: r =>
    match hexDigits? [a, b, c, d], high? with
    | some unit, some high =>
      if isLowSurrogate unit then stringValue? (surrogatePair high unit :: done) none r else none
    | some unit, none =>
      if isHighSurrogate unit then stringValue? done (some unit) r
      else if isLowSurrogate unit then none
      else stringValue? (Char.ofNat unit :: done) none r
    | none, _ => none
  | '\\' :: c :: r =>
    match jsonEscape? c, high? with
    | some value, none => stringValue? (value :: done) none r
    | _, _ => none
  | c :: r =>
    if c < ' ' ∨ c = '\\' ∨ high?.isSome then none else stringValue? (c :: done) none r

theorem length_throughQuote? {passed cs raw r : List Char}
    (h : throughQuote? passed cs = some (raw, r)) : r.length < cs.length := by
  fun_induction throughQuote? passed cs with
  | case1 => simp at h
  | case2 => simp_all
  | case3 passed c rest ih => have := ih h; simp only [List.length_cons]; omega
  | case4 passed c rest _ _ ih => have := ih h; simp only [List.length_cons]; omega

end SlsLang
