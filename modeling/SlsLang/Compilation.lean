import SlsLang.Recognizer
import SlsLang.SourcePath
import SlsLang.SyntaxBuilder
import SlsLang.TreeText

namespace SlsLang

/-- The names that each module declares, in order of declaration. -/
abbrev SymbolTable := List (String × List String)

/-- A file is one module. It is in the table once it declares a name. -/
def declaredSymbols (file : String) (constructs : List Construct) : SymbolTable :=
  match constructs.filterMap Construct.declared? with
  | [] => []
  | names => [(fileStem file, names)]

/-- All that comes of one source text. -/
structure Compilation where
  tree : SyntaxTree
  root : Handle
  symbols : SymbolTable
  diagnostics : List Diagnostic

/-- Compiles a text into a tree that may hold other nodes already. -/
def compileInto (tree : SyntaxTree) (file text : String) : Compilation :=
  let recognition := recognize (Lexer.start file text).readings
  let built := (SyntaxBuilder.start tree file).addAll recognition.constructs
  ⟨built.tree, built.root, declaredSymbols file recognition.constructs, recognition.diagnostics⟩

def compile (file text : String) : Compilation := compileInto (.empty 0) file text

/-- Compiles file after file, each into a tree of its own. Identifiers go on from tree to tree. -/
def compileAll (firstId : Nat) : List (String × String) → List Compilation
  | [] => []
  | (file, text) :: sources =>
    let compiled := compileInto (.empty firstId) file text
    compiled :: compileAll compiled.tree.nextId sources

namespace Compilation

def succeeded (c : Compilation) : Bool := c.diagnostics.isEmpty

def notices (c : Compilation) : String := SlsLang.notices c.tree c.root

def dump (c : Compilation) : String := SlsLang.dump c.tree c.root

end Compilation

end SlsLang
