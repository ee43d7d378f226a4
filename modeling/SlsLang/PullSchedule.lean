import SlsLang.Lexer

namespace SlsLang

/-- A way to take tokens from a lexer: the next one, or a number of pulls on a fresh stream. -/
inductive Pull
  | token
  | stream (pulls : Nat)
deriving DecidableEq, Repr

/-- A lexer in use, with all the diagnostics of what it has read. -/
structure PulledLexer where
  lexer : Lexer
  diagnostics : List Diagnostic

namespace PulledLexer

def start (file text : String) : PulledLexer := ⟨.start file text, []⟩

def next (p : PulledLexer) : Reading × PulledLexer :=
  (p.lexer.next.1, ⟨p.lexer.next.2, p.diagnostics ++ p.lexer.next.1.diagnostics⟩)

/-- A stream hands out tokens up to the end of the text, and nothing once it has handed out that. -/
def stream : Nat → PulledLexer → List (Option Token) × PulledLexer
  | 0, p => ([], p)
  | n + 1, p =>
    if p.next.1.isLast then (some p.next.1.token :: List.replicate n none, p.next.2)
    else
      let (tokens, q) := stream n p.next.2
      (some p.next.1.token :: tokens, q)

def pull (p : PulledLexer) : Pull → List (Option Token) × PulledLexer
  | .token => ([some p.next.1.token], p.next.2)
  | .stream pulls => p.stream pulls

/-- What every step of a schedule hands out, with the lexer after that step. -/
def run (p : PulledLexer) : List Pull → List (List (Option Token) × PulledLexer)
  | [] => []
  | step :: steps => p.pull step :: (p.pull step).2.run steps

end PulledLexer

end SlsLang
