import SlsLang.Statement
import SlsLang.SyntaxNode

namespace SlsLang

/-- A syntax tree in the making. Parameters and a body go under the function that came last, and
statements under the body that came last. -/
structure SyntaxBuilder where
  tree : SyntaxTree
  root : Handle
  function : Handle
  body : Handle

/-- The root comes from no token of the text. -/
def rootToken (file : String) : Token := ⟨.endOfFile, "", file, 1, 1, ""⟩

/-- A value under `parent`. A token that is no value leaves the tree as it is. -/
def appendValue (tree : SyntaxTree) (parent : Handle) (value : Token) : SyntaxTree :=
  match SyntaxKind.forValue? value.kind with
  | some kind => tree.append parent kind value value.text
  | none => tree

def appendStatement (tree : SyntaxTree) (parent : Handle) (statement : Statement) : SyntaxTree :=
  let first := tree.size
  match statement with
  | .declaration name type init? =>
    let declared := ((tree.append parent .declStatement name "decl").append first .varDecl name
      name.text).append (first + 1) .typeRef type type.text
    match init? with
    | some init => appendValue declared (first + 1) init
    | none => declared
  | .assignment target value =>
    appendValue (tree.append parent .assignment target target.text) first value
  | .call head callee arguments =>
    arguments.foldl (fun called argument => appendValue called first argument)
      (tree.append parent .callExpr head callee)

namespace SyntaxBuilder

/-- A root beside the nodes of an earlier tree. -/
def start (tree : SyntaxTree) (file : String) : SyntaxBuilder :=
  let root := tree.size
  ⟨tree.create .root (rootToken file) "root", root, root, root⟩

def add (b : SyntaxBuilder) (construct : Construct) : SyntaxBuilder :=
  let first := b.tree.size
  match construct with
  | .function name =>
    { b with
      tree := b.tree.append b.root .functionDecl name name.text
      function := first }
  | .parameter type name =>
    { b with
      tree := (b.tree.append b.function .paramVarDecl name name.text).append first .typeRef type
        type.text }
  | .body brace =>
    { b with
      tree := b.tree.append b.function .compoundStatement brace "body"
      body := first }
  | .statement statement => { b with tree := appendStatement b.tree b.body statement }

def addAll (b : SyntaxBuilder) (constructs : List Construct) : SyntaxBuilder :=
  constructs.foldl add b

theorem addAll_nil (b : SyntaxBuilder) : b.addAll [] = b := rfl

theorem addAll_cons (b : SyntaxBuilder) (c : Construct) (cs : List Construct) :
    b.addAll (c :: cs) = (b.add c).addAll cs := rfl

theorem addAll_append (b : SyntaxBuilder) (xs ys : List Construct) :
    b.addAll (xs ++ ys) = (b.addAll xs).addAll ys :=
  List.foldl_append

end SyntaxBuilder

end SlsLang
