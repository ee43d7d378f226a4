import SlsLang.Statement

namespace SlsLang

/-- The pieces of a dotted name, names and dots, and the faults between them. A name is due first,
and after a name a dot; a token that is neither name nor dot is passed over. -/
def calleePieces (dotDue : Bool) : List Token → List String × List Diagnostic
  | [] => ([], [])
  | t :: ts =>
    if t.isPunctuation "." then
      let (pieces, faults) := calleePieces false ts
      if dotDue then ("." :: pieces, faults)
      else (pieces, t.blame .unexpectedPunctuation :: faults)
    else
      let (pieces, faults) := calleePieces t.isIdentifier ts
      (if t.isIdentifier then t.text :: pieces else pieces,
        if dotDue then t.blame .unexpectedPunctuation :: faults else faults)

/-- The values between the parentheses of a call. Every second token has to be a comma, and nothing
counts from the first that is not. -/
def callArguments : List Token → List Token × List Diagnostic
  | [] => ([], [])
  | [t] => (if t.isValue then [t] else [], [])
  | t :: comma :: ts =>
    let value := if t.isValue then [t] else []
    if comma.isPunctuation "," then
      let (values, faults) := callArguments ts
      (value ++ values, faults)
    else (value, [comma.blame .expectedComma])

/-- A run of tokens up to `last`, a closing parenthesis, read as a call. -/
def classifyCall (run : List Token) (last : Token) : Classified :=
  let callee := run.takeWhile (!·.isPunctuation "(")
  let (pieces, faults) := calleePieces false callee
  match run.drop callee.length with
  | [] => ⟨none, faults ++ [last.blame .expectedOpenParenthesis]⟩
  | _ :: inside =>
    match callee with
    | [] => ⟨none, [last.blame .expectedOpenParenthesis]⟩
    | head :: _ =>
      if run.countP (·.isPunctuation ")") + 1 < run.countP (·.isPunctuation "(") then
        ⟨none, faults ++ [last.blame .expectedCloseParenthesis]⟩
      else
        let (arguments, argumentFaults) := callArguments inside
        ⟨some (.call head (String.join pieces) arguments), faults ++ argumentFaults⟩

/-- Tells what statement a run of tokens makes. One token is none, and a run of another form is
passed over in silence, unless it ends as a call does. -/
def classify : List Token → Classified
  | [] => ⟨none, []⟩
  | [t] => ⟨none, [t.blame .expectedStatement]⟩
  | run =>
    match Statement.ofShape? run with
    | some statement => ⟨some statement, []⟩
    | none =>
      match run.getLast? with
      | some last =>
        if last.isPunctuation ")" then classifyCall run.dropLast last else ⟨none, []⟩
      | none => ⟨none, []⟩

end SlsLang
