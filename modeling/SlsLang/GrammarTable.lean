import SlsLang.JsonReader
import SlsLang.Lines

namespace SlsLang

/-- The characters with the Unicode property White_Space. -/
def isBlank (c : Char) : Bool :=
  ('\t' ≤ c && c ≤ '\r') || c == ' ' || c == '\u0085' || c == '\u00a0' || c == '\u1680' ||
    ('\u2000' ≤ c && c ≤ '\u200a') || c == '\u2028' || c == '\u2029' || c == '\u202f' ||
    c == '\u205f' || c == '\u3000'

/-- The terms of a text, which blanks keep apart. -/
def terms (cs : List Char) : List (List Char) :=
  (cs.splitBy fun a b => isBlank a == isBlank b).filter (·.head?.any (!isBlank ·))

/-- A term refers to another symbol if it starts with an angle bracket. -/
def references (alternative : String) : Bool :=
  (terms alternative.toList).any fun term => term.head? == some '<'

structure GrammarSymbol where
  name : String
  alternatives : List String
deriving DecidableEq, Repr

namespace GrammarSymbol

/-- A symbol is terminal if none of its alternatives refers to a symbol. -/
def isTerminal (s : GrammarSymbol) : Bool := !s.alternatives.any references

def line (s : GrammarSymbol) : String :=
  (if s.isTerminal then "terminal " else "non-terminal ") ++ s.name ++ " -> " ++
    " | ".intercalate s.alternatives

end GrammarSymbol

/-- Why a text gives no grammar table. -/
inductive GrammarFault
  | notJson
  | missingRules
  | invalidRule (name : String)
deriving DecidableEq, Repr

def GrammarFault.message : GrammarFault → String
  | notJson => "invalid grammar JSON"
  | missingRules => "grammar has no `rules` object"
  | invalidRule name => "rule `" ++ name ++ "` is neither a string, `$or` nor `$type`"

/-- All that is said of a fault. What the reader of JSON texts has to say of one that is none comes
behind the message. -/
def GrammarFault.report (complaint : String) : GrammarFault → String
  | notJson => notJson.message ++ if complaint = "" then "" else ": " ++ complaint
  | fault => fault.message

/-- The symbols of a grammar in the order of their names. -/
structure GrammarTable where
  symbols : List GrammarSymbol
deriving DecidableEq, Repr

/-- One alternative: a string, or an object that names a type. -/
def alternative? : JsonValue → Option String
  | .string s => some s
  | value => (value.get? "$type").bind JsonValue.string?

/-- The alternatives of a rule. The key for a choice takes precedence over the key for a type. -/
def ruleAlternatives? : JsonValue → Option (List String)
  | .string s => some [s]
  | rule =>
    match rule.get? "$or" with
    | some (.array alternatives) => alternatives.mapM alternative?
    | some _ => none
    | none => ((rule.get? "$type").bind JsonValue.string?).map ([·])

namespace GrammarTable

def symbolOf (entry : String × JsonValue) : Except GrammarFault GrammarSymbol :=
  match ruleAlternatives? entry.2 with
  | some alternatives => .ok ⟨entry.1, alternatives⟩
  | none => .error (.invalidRule entry.1)

/-- Makes a symbol of every rule. The first rule that is none is to blame. -/
def ofDocument (document : JsonValue) : Except GrammarFault GrammarTable :=
  match document.get? "rules" with
  | some (.object rules) => (rules.mapM symbolOf).map GrammarTable.mk
  | _ => .error .missingRules

/-- Reads a table, given a reader of JSON texts. -/
def readBy (document? : String → Option JsonValue) (text : String) :
    Except GrammarFault GrammarTable :=
  match document? text with
  | some document => ofDocument document
  | none => .error .notJson

def read : String → Except GrammarFault GrammarTable := readBy readJson?

def get? (g : GrammarTable) (name : String) : Option GrammarSymbol :=
  g.symbols.find? (·.name == name)

def render (g : GrammarTable) : String := unlines (g.symbols.map GrammarSymbol.line)

end GrammarTable

end SlsLang
