import SlsLang.Compilation
import SlsLang.Disk
import SlsLang.GrammarTable
import SlsLang.Host
import SlsLang.Options

namespace SlsLang

/-- What a run leaves behind. -/
structure Outcome where
  exit : Nat
  stdout : String
  stderr : String
deriving DecidableEq, Repr

/-- The exit status of a run that breaks off. -/
def brokenOffExit : Nat := 101

def usage : List String :=
  ["Usage: slsc [options] [file]",
    "",
    "Arguments:",
    "  file                  Source file (default: main.sls)",
    "",
    "Options:",
    "  -g, --grammar <path>  Grammar table to load (default: grammar.json if present)",
    "      --print-grammar   Print the loaded grammar table",
    "      --tokens          Print the token stream instead of recognizing",
    "      --tree            Print the syntax tree after recognition",
    "  -v, --verbose         More logging, repeat for more (RUST_LOG overrides)",
    "  -h, --help            Show this help"]

/-- Why there is no grammar table, with the path it was to come from. -/
inductive LoadFault
  | unread (path : String) (fault : ReadFault)
  | invalid (path : String) (fault : GrammarFault) (complaint : String)
deriving DecidableEq, Repr

def LoadFault.message : LoadFault → String
  | unread path fault => path ++ ": failed to read grammar: " ++ fault.message
  | invalid path fault complaint => path ++ ": " ++ fault.report complaint

def Disk.loadTable (disk : Disk) (host : Host) (path : String) : Except LoadFault GrammarTable :=
  match disk.read path with
  | .error fault => .error (.unread path fault)
  | .ok text =>
    match GrammarTable.readBy host.document? text with
    | .error fault => .error (.invalid path fault (host.complaint text))
    | .ok table => .ok table

/-- The grammar table of a run. Only the default one may be missing. -/
def Disk.loadGrammar (disk : Disk) (host : Host) (o : Options) :
    Except LoadFault (Option GrammarTable) :=
  if o.grammar?.isNone && !disk.isPresent defaultGrammar then .ok none
  else (disk.loadTable host o.grammarPath).map some

/-- What a run has to say about a source file, and whether it found anything wrong with it. -/
structure Report where
  text : String
  diagnostics : List Diagnostic

def Token.line (t : Token) : String :=
  t.kind.name ++ ": " ++ t.text ++ " (" ++ toString t.place.line ++ ":" ++
    toString t.place.column ++ ")"

def tokenReport (file text : String) : Report :=
  let readings := (Lexer.start file text).readings
  ⟨unlines (readings.map (·.token.line)), readings.flatMap Reading.diagnostics⟩

def treeReport (withDump : Bool) (file text : String) : Report :=
  let compiled := compile file text
  ⟨compiled.notices ++ if withDump then compiled.dump else "", compiled.diagnostics⟩

def Options.report (o : Options) (file text : String) : Report :=
  if o.tokens then tokenReport file text else treeReport o.tree file text

/-- Standard output and standard error of printing the grammar table. -/
def Options.printed (o : Options) (table? : Option GrammarTable) : String × String :=
  if o.printGrammar then
    match table? with
    | some table => (table.render, "")
    | none => ("", unlines [defaultGrammar ++ ": not found, no grammar to print"])
  else ("", "")

def runOptions (host : Host) (o : Options) (disk : Disk) : Outcome :=
  match disk.loadGrammar host o with
  | .error fault => ⟨1, "", unlines [fault.message]⟩
  | .ok table? =>
    let (stdout, stderr) := o.printed table?
    match disk.readSource o.source with
    | .error fault => ⟨1, stdout, stderr ++ unlines [o.source ++ ": " ++ fault.message]⟩
    | .ok (file, text) =>
      let report := o.report file text
      let (written, whole) := host.write report.diagnostics
      if whole then
        ⟨if report.diagnostics.isEmpty then 0 else 1, stdout ++ report.text ++ written, stderr⟩
      else ⟨brokenOffExit, stdout ++ report.text ++ written, stderr ++ host.lastMessage⟩

/-- Runs a command line on a host. -/
def runOn (host : Host) (arguments : List String) (disk : Disk) : Outcome :=
  match parseArguments arguments with
  | .error fault => ⟨2, "", unlines (("Error: " ++ fault.message) :: "" :: usage)⟩
  | .ok .help => ⟨0, "", unlines usage⟩
  | .ok (.run o) => runOptions host o disk

def run : List String → Disk → Outcome := runOn .plain

end SlsLang
