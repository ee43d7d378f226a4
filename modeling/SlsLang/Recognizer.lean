import SlsLang.CallStatement
import SlsLang.Lexer

namespace SlsLang

/-- What is due next while functions are recognized. -/
inductive Awaiting
  | function
  | functionName
  | parameterList
  | firstParameter
  | nextParameter
  | parameterType
  | parameterName (type : Token)
  | body (listAccepted : Bool)
  /-- The tokens of a statement so far, latest first. -/
  | statement (run : List Token)
deriving DecidableEq, Repr

/-- What comes of one token: what is due after it, a construct it completes, and its faults. -/
structure Response where
  next : Awaiting
  construct? : Option Construct
  faults : List Diagnostic
deriving DecidableEq, Repr

namespace Response

def pass (next : Awaiting) : Response := ⟨next, none, []⟩

def accept (construct : Construct) (next : Awaiting) : Response := ⟨next, some construct, []⟩

def refuse (t : Token) (fault : SyntaxFault) (next : Awaiting) : Response :=
  ⟨next, none, [t.blame fault]⟩

end Response

namespace Awaiting

/-- A parameter starts with the name of its type. -/
def respondToType (t : Token) : Response :=
  if t.isIdentifier then .pass (.parameterName t)
  else .refuse t .expectedParameterType (.body false)

/-- The answer to a token that is no comment. A fault in a parameter list ends the list, and the
body is due; any other fault in a function gives the function up. -/
def respondTo (t : Token) : Awaiting → Response
  | .function =>
    if t.kind = .invalid then .refuse t .unexpectedInvalidToken .function
    else if t.isKeyword "fun" then .pass .functionName
    else .pass .function
  | .functionName =>
    if t.isIdentifier then .accept (.function t) .parameterList
    else .refuse t .expectedFunctionName .function
  | .parameterList =>
    if t.isPunctuation "(" then .pass .firstParameter
    else .refuse t .expectedLeftParenthesis (.body false)
  | .firstParameter =>
    if t.isPunctuation ")" then .pass (.body true)
    else if t.isEndOfFile then .refuse t .expectedRightParenthesis (.body false)
    else respondToType t
  | .nextParameter =>
    if t.isPunctuation ")" then .pass (.body true)
    else if t.isEndOfFile then .refuse t .expectedRightParenthesis (.body false)
    else if t.isPunctuation "," then .pass .parameterType
    else .refuse t .expectedComma (.body false)
  | .parameterType => respondToType t
  | .parameterName type =>
    if t.isIdentifier then .accept (.parameter type t) .nextParameter
    else .refuse t .expectedParameterName (.body false)
  | .body listAccepted =>
    if t.isPunctuation "\x7b" then .accept (.body t) (.statement [])
    else if listAccepted || !t.isEndOfFile then .refuse t .expectedLeftBrace .function
    else .pass .function
  | .statement run =>
    if run.isEmpty && t.isPunctuation "\x7d" then .pass .function
    else if t.isEndOfFile then .refuse t .unexpectedEndOfFile .function
    else if t.isPunctuation ";" then
      let classified := classify run.reverse
      ⟨.statement [], classified.statement?.map .statement, classified.faults⟩
    else .pass (.statement (t :: run))

/-- A comment changes nothing, wherever it stands. -/
def respond (a : Awaiting) (t : Token) : Response := if t.isComment then .pass a else a.respondTo t

/-- The answers to a row of tokens, after those already given, latest first. -/
def responsesAfter (done : List Response) : Awaiting → List Token → List Response
  | _, [] => done.reverse
  | a, t :: ts => responsesAfter (a.respond t :: done) (a.respond t).next ts

/-- The answers to a row of tokens, one for each. -/
def responses (a : Awaiting) (ts : List Token) : List Response := responsesAfter [] a ts

theorem responsesAfter_eq (done : List Response) (a : Awaiting) (ts : List Token) :
    responsesAfter done a ts = done.reverse ++ a.responses ts := by
  induction ts generalizing done a with
  | nil => simp [responses, responsesAfter]
  | cons t ts ih =>
    rw [responses, responsesAfter, responsesAfter, ih, ih [a.respond t]]
    simp

theorem responses_nil (a : Awaiting) : a.responses [] = [] := rfl

theorem responses_cons (a : Awaiting) (t : Token) (ts : List Token) :
    a.responses (t :: ts) = a.respond t :: (a.respond t).next.responses ts := by
  rw [responses, responsesAfter, responsesAfter_eq]
  rfl

end Awaiting

/-- The constructs of a source text, and all that was found wrong with its tokens. -/
structure Recognition where
  constructs : List Construct
  diagnostics : List Diagnostic
deriving DecidableEq, Repr

/-- Recognizes the functions among all readings of a text. The faults of a token's spelling come
before those of its position. -/
def recognize (readings : List Reading) : Recognition :=
  let responses := Awaiting.function.responses (readings.map Reading.token)
  ⟨responses.filterMap Response.construct?,
    (readings.zipWith (fun reading response => reading.diagnostics ++ response.faults)
      responses).flatten⟩

end SlsLang
