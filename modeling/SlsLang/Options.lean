namespace SlsLang

/-- What a run is asked to do. -/
structure Options where
  source? : Option String := none
  grammar? : Option String := none
  printGrammar : Bool := false
  tokens : Bool := false
  tree : Bool := false
  verbosity : Nat := 0
deriving DecidableEq, Repr

inductive Command
  | run (options : Options)
  | help
deriving DecidableEq, Repr

/-- Why a list of arguments is refused. -/
inductive UsageFault
  | missingPath (option : String)
  | unknownOption (option : String)
  | secondSource
deriving DecidableEq, Repr

def UsageFault.message : UsageFault → String
  | missingPath option => option ++ " requires a path"
  | unknownOption option => "unknown option: " ++ option
  | secondSource => "only one source file can be given"

def defaultSource : String := "main.sls"

def defaultGrammar : String := "grammar.json"

def maxVerbosity : Nat := 255

namespace Options

def source (o : Options) : String := o.source?.getD defaultSource

def grammarPath (o : Options) : String := o.grammar?.getD defaultGrammar

def moreVerbose (o : Options) (steps : Nat) : Options :=
  { o with verbosity := min maxVerbosity (o.verbosity + steps) }

/-- The options that need nothing after them, apart from the one for help. -/
def withFlag? (o : Options) : String → Option Options
  | "--print-grammar" => some { o with printGrammar := true }
  | "--tokens" => some { o with tokens := true }
  | "--tree" => some { o with tree := true }
  | "-v" | "--verbose" => some (o.moreVerbose 1)
  | "-vv" => some (o.moreVerbose 2)
  | _ => none

end Options

def isHelpOption (argument : String) : Bool := argument == "-h" || argument == "--help"

def isGrammarOption (argument : String) : Bool := argument == "-g" || argument == "--grammar"

/-- Whatever starts with a hyphen is taken for an option. -/
def isOption (argument : String) : Bool := argument.toList.head? == some '-'

/-- Reads arguments from left to right, up to the first that asks for help or is refused. -/
def readArguments (o : Options) : List String → Except UsageFault Command
  | [] => .ok (.run o)
  | argument :: rest =>
    if isHelpOption argument then .ok .help
    else if isGrammarOption argument then
      match rest with
      | [] => .error (.missingPath argument)
      | path :: rest => readArguments { o with grammar? := some path } rest
    else
      match o.withFlag? argument with
      | some flagged => readArguments flagged rest
      | none =>
        if isOption argument then .error (.unknownOption argument)
        else if o.source?.isSome then .error .secondSource
        else readArguments { o with source? := some argument } rest

def parseArguments (arguments : List String) : Except UsageFault Command :=
  readArguments {} arguments

end SlsLang
