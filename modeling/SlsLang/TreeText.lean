import SlsLang.Descendants
import SlsLang.Lines
import SlsLang.SyntaxNode

namespace SlsLang

def childNodes (tree : SyntaxTree) (node : SyntaxNode) : List SyntaxNode :=
  node.children.toList.filterMap tree.get?

/-- The name of the first type among some nodes. -/
def typeName (nodes : List SyntaxNode) : String :=
  ((nodes.find? (·.kind == .typeRef)).map Node.name).getD ""

/-- What a report says of one node, given its children. -/
def noticesOf (node : SyntaxNode) (children : List SyntaxNode) : List String :=
  match node.kind with
  | .functionDecl => ["function: " ++ node.name]
  | .paramVarDecl => ["parameter: " ++ typeName children ++ " " ++ node.name]
  | .varDecl =>
    match children.find? (·.kind.isValue) with
    | some init =>
      ["var declaration: " ++ node.name ++ " with type " ++ typeName children,
        "assignment: " ++ node.name ++ " = " ++ init.payload.text ++ " <- " ++
          init.payload.kind.name]
    | none => ["var declaration: " ++ node.name ++ " " ++ typeName children]
  | .assignment =>
    ["assignment: " ++ node.name ++ " = " ++ ((children.head?.map (·.payload.text)).getD "")]
  | .callExpr => ("function call: " ++ node.name) :: children.map ("param: " ++ ·.payload.text)
  | _ => []

/-- A report on all nodes below `root`. -/
def notices (tree : SyntaxTree) (root : Handle) : String :=
  unlines ((tree.descendants root).flatMap fun (h, _) =>
    ((tree.get? h).map fun node => noticesOf node (childNodes tree node)).getD [])

/-- One node of a dump: its kind, its name in quotes, its identifier and its position. -/
def dumpLine (depth : Nat) (node : SyntaxNode) : String :=
  let quoted := if node.name = "" ∨ node.kind = .root then "" else " '" ++ node.name ++ "'"
  String.ofList (List.replicate (2 * depth) ' ') ++ node.kind.name ++ quoted ++ " " ++
    idText node.id ++ " <" ++ toString node.payload.place.line ++ ":" ++
    toString node.payload.place.column ++ ">"

/-- Every node below `root` on a line of its own, two spaces deeper than its parent. -/
def dump (tree : SyntaxTree) (root : Handle) : String :=
  unlines ((tree.descendants root).filterMap fun (h, depth) => (tree.get? h).map (dumpLine depth))

end SlsLang
