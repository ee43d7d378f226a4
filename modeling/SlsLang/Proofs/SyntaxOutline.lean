import SlsLang.Proofs.ForestGrowth

namespace SlsLang

open Outline

abbrev SyntaxOutline := Outline SyntaxKind Token

def valueOutlines (value : Token) : List SyntaxOutline :=
  match SyntaxKind.forValue? value.kind with
  | some kind => [.node kind value value.text []]
  | none => []

def Statement.outline : Statement → SyntaxOutline
  | .declaration name type init? =>
    .node .declStatement name "decl" [.node .varDecl name name.text
      (.node .typeRef type type.text [] :: init?.toList.flatMap valueOutlines)]
  | .assignment target value => .node .assignment target target.text (valueOutlines value)
  | .call head callee arguments => .node .callExpr head callee (arguments.flatMap valueOutlines)

def parameterOutline (type name : Token) : SyntaxOutline :=
  .node .paramVarDecl name name.text [.node .typeRef type type.text []]

/-- All that is recognized of one function. Its body may be missing. -/
structure FunctionParts where
  name : Token
  parameters : List (Token × Token)
  body? : Option (Token × List Statement)

namespace FunctionParts

def constructs (f : FunctionParts) : List Construct :=
  .function f.name :: (f.parameters.map (fun p => .parameter p.1 p.2) ++
    f.body?.toList.flatMap fun b => .body b.1 :: b.2.map .statement)

def outline (f : FunctionParts) : SyntaxOutline :=
  .node .functionDecl f.name f.name.text
    (f.parameters.map (fun p => parameterOutline p.1 p.2) ++
      f.body?.toList.map fun b => .node .compoundStatement b.1 "body" (b.2.map Statement.outline))

end FunctionParts

/-- Growth below a last child is growth at the end of a longer way. -/
theorem fill_concat {K P : Type} (way : List (Frame K P)) (k : K) (p : P) (n : String)
    (below : List (Outline K P)) (o : Outline K P) :
    fill way (node k p n (below ++ [o])) = fill (way ++ [⟨k, p, n, below⟩]) o := by
  rw [fill_append]
  rfl

theorem fill_singleton {K P : Type} (way : List (Frame K P)) (k : K) (p : P) (n : String)
    (o : Outline K P) : fill way (node k p n [o]) = fill (way ++ [⟨k, p, n, []⟩]) o :=
  fill_concat way k p n [] o

theorem Forest.Holds.size_eq {K P : Type} {t : Forest K P} {old : List (Node K P)} {id : Nat}
    {way : List (Frame K P)} {k : K} {p : P} {n : String} {below : List (Outline K P)}
    (h : t.Holds old id (fill way (node k p n below))) :
    t.size = old.length + passed (way ++ [⟨k, p, n, below⟩]) := by
  rw [h.size, size_fill, Outline.size, passed_append]
  rfl

section Statements

variable {t : SyntaxTree} {old : List SyntaxNode} {id : Nat} {way : List (Frame SyntaxKind Token)}
  {k : SyntaxKind} {p : Token} {n : String} {below : List SyntaxOutline}

theorem appendValue_holds (h : t.Holds old id (fill way (node k p n below))) (value : Token) :
    (appendValue t (old.length + passed way) value).Holds old id
      (fill way (node k p n (below ++ valueOutlines value))) := by
  unfold appendValue valueOutlines
  cases SyntaxKind.forValue? value.kind with
  | none => simpa using h
  | some kind => exact h.append kind value value.text

theorem appendValues_holds (h : t.Holds old id (fill way (node k p n below))) (values : List Token) :
    (values.foldl (fun t value => appendValue t (old.length + passed way) value) t).Holds old id
      (fill way (node k p n (below ++ values.flatMap valueOutlines))) := by
  induction values generalizing t below with
  | nil => simpa using h
  | cons value values ih =>
    have htail := ih (appendValue_holds h value)
    simpa using htail

theorem appendStatement_holds (h : t.Holds old id (fill way (node k p n below)))
    (statement : Statement) : (appendStatement t (old.length + passed way) statement).Holds old id
      (fill way (node k p n (below ++ [statement.outline]))) := by
  have hsize := h.size_eq
  cases statement with
  | declaration name type init? =>
    have hdecl := h.append .declStatement name "decl"
    rw [fill_concat] at hdecl
    have hvar := hdecl.append .varDecl name name.text
    rw [fill_concat] at hvar
    have hfirst : old.length + passed (way ++ [⟨k, p, n, below⟩]) + 1 =
        old.length + passed (way ++ [⟨k, p, n, below⟩] ++ [⟨.declStatement, name, "decl", []⟩]) := by
      rw [passed_append (way ++ [_])]
      rfl
    have htype := hvar.append .typeRef type type.text
    simp only [appendStatement, hsize, hfirst, Statement.outline]
    rw [fill_concat, fill_singleton]
    cases init? with
    | none => exact htype
    | some init =>
      rw [Option.toList_some, List.flatMap_singleton]
      exact appendValue_holds htype init
  | assignment target value =>
    have hassign := h.append .assignment target target.text
    rw [fill_concat] at hassign
    simp only [appendStatement, hsize, Statement.outline]
    rw [fill_concat]
    exact appendValue_holds hassign value
  | call head callee arguments =>
    have hcall := h.append .callExpr head callee
    rw [fill_concat] at hcall
    simp only [appendStatement, hsize, Statement.outline]
    rw [fill_concat]
    exact appendValues_holds hcall arguments

end Statements

namespace SyntaxBuilder

/-- After the nodes `old` there is a root with complete functions below it. -/
structure AtRoot (b : SyntaxBuilder) (old : List SyntaxNode) (id : Nat) (r : Token)
    (below : List SyntaxOutline) : Prop where
  root : b.root = old.length
  tree : b.tree.Holds old id (node .root r "root" below)

/-- The function that came last is under way, at the end of `up`. -/
structure InFunction (b : SyntaxBuilder) (old : List SyntaxNode) (id : Nat)
    (up : Frame SyntaxKind Token) (name : Token) (below : List SyntaxOutline) : Prop where
  root : b.root = old.length
  function : b.function = old.length + passed [up]
  tree : b.tree.Holds old id (fill [up] (node .functionDecl name name.text below))

structure InBody (b : SyntaxBuilder) (old : List SyntaxNode) (id : Nat)
    (up function : Frame SyntaxKind Token) (brace : Token) (below : List SyntaxOutline) : Prop where
  root : b.root = old.length
  body : b.body = old.length + passed [up, function]
  tree : b.tree.Holds old id (fill [up, function] (node .compoundStatement brace "body" below))

section Steps

variable {b : SyntaxBuilder} {old : List SyntaxNode} {id : Nat} {r name brace : Token}
  {up function : Frame SyntaxKind Token} {below : List SyntaxOutline}

theorem AtRoot.add_function (h : b.AtRoot old id r below) (name : Token) :
    (b.add (.function name)).InFunction old id ⟨.root, r, "root", below⟩ name [] := by
  have htree : b.tree.Holds old id (fill [] (node .root r "root" below)) := h.tree
  have hgrown := htree.append .functionDecl name name.text
  rw [fill_concat] at hgrown
  refine ⟨h.root, htree.size_eq, ?_⟩
  simp only [add, h.root]
  exact hgrown

theorem InFunction.add_parameter (h : b.InFunction old id up name below) (type parameter : Token) :
    (b.add (.parameter type parameter)).InFunction old id up name
      (below ++ [parameterOutline type parameter]) := by
  have hparameter := h.tree.append .paramVarDecl parameter parameter.text
  rw [fill_concat] at hparameter
  have htype := hparameter.append .typeRef type type.text
  refine ⟨h.root, h.function, ?_⟩
  simp only [add, h.function, h.tree.size_eq, parameterOutline]
  rw [fill_concat]
  exact htype

theorem InFunction.add_body (h : b.InFunction old id up name below) (brace : Token) :
    (b.add (.body brace)).InBody old id up ⟨.functionDecl, name, name.text, below⟩ brace [] := by
  have hgrown := h.tree.append .compoundStatement brace "body"
  rw [fill_concat] at hgrown
  refine ⟨h.root, h.tree.size_eq, ?_⟩
  simp only [add, h.function]
  exact hgrown

theorem InBody.add_statement (h : b.InBody old id up function brace below) (statement : Statement) :
    (b.add (.statement statement)).InBody old id up function brace
      (below ++ [statement.outline]) := by
  refine ⟨h.root, h.body, ?_⟩
  simp only [add, h.body]
  exact appendStatement_holds h.tree statement

theorem InFunction.addAll_parameters (h : b.InFunction old id up name below)
    (ps : List (Token × Token)) :
    (b.addAll (ps.map fun p => .parameter p.1 p.2)).InFunction old id up name
      (below ++ ps.map fun p => parameterOutline p.1 p.2) := by
  induction ps generalizing b below with
  | nil => simpa [addAll_nil] using h
  | cons p ps ih =>
    have htail := ih (h.add_parameter p.1 p.2)
    simpa [addAll_cons] using htail

theorem InBody.addAll_statements (h : b.InBody old id up function brace below)
    (ss : List Statement) :
    (b.addAll (ss.map .statement)).InBody old id up function brace
      (below ++ ss.map Statement.outline) := by
  induction ss generalizing b below with
  | nil => simpa [addAll_nil] using h
  | cons s ss ih =>
    have htail := ih (h.add_statement s)
    simpa [addAll_cons] using htail

theorem AtRoot.addAll_function (h : b.AtRoot old id r below) (f : FunctionParts) :
    (b.addAll f.constructs).AtRoot old id r (below ++ [f.outline]) := by
  have hfunction := (h.add_function f.name).addAll_parameters f.parameters
  rw [List.nil_append] at hfunction
  have hcons : b.addAll f.constructs = ((b.add (.function f.name)).addAll
      (f.parameters.map fun p => .parameter p.1 p.2)).addAll
      (f.body?.toList.flatMap fun b => .body b.1 :: b.2.map .statement) := addAll_append _ _ _
  rw [hcons, FunctionParts.outline]
  cases f.body? with
  | none =>
    refine ⟨hfunction.root, ?_⟩
    have htree := hfunction.tree
    simpa [fill, addAll_nil] using htree
  | some body =>
    have hbody := (hfunction.add_body body.1).addAll_statements body.2
    rw [Option.toList_some, List.flatMap_singleton]
    refine ⟨hbody.root, ?_⟩
    have htree := hbody.tree
    simpa [fill, addAll_cons] using htree

/-- Functions that are recognized one after the other come to stand so below the root. -/
theorem AtRoot.addAll_functions (h : b.AtRoot old id r below) (fs : List FunctionParts) :
    (b.addAll (fs.flatMap FunctionParts.constructs)).AtRoot old id r
      (below ++ fs.map FunctionParts.outline) := by
  induction fs generalizing b below with
  | nil => simpa [addAll_nil] using h
  | cons f fs ih =>
    have htail := ih (h.addAll_function f)
    simpa [addAll_append] using htail

/-- A builder that has nothing but a root yet makes one outline of the functions it is given. -/
theorem AtRoot.tree_eq_forest (h : b.AtRoot [] id r []) (fs : List FunctionParts) :
    (b.addAll (fs.flatMap FunctionParts.constructs)).tree =
      (node .root r "root" (fs.map FunctionParts.outline)).forest id := by
  have hbuilt := h.addAll_functions fs
  rw [List.nil_append] at hbuilt
  exact Forest.holds_forest hbuilt.tree

end Steps

theorem atRoot_start_after (tree : SyntaxTree) (file : String) :
    (start tree file).AtRoot tree.nodes.toList tree.nextId (rootToken file) [] :=
  ⟨rfl, by simp [start, Forest.create, nodes, handles, nodesAll], rfl⟩

theorem atRoot_start (firstId : Nat) (file : String) :
    (start (.empty firstId) file).AtRoot [] firstId (rootToken file) [] :=
  atRoot_start_after (.empty firstId) file

theorem atRoot_start_relocate (g : Place → Place) (firstId : Nat) (file : String) :
    ((start (.empty firstId) file).relocate g).AtRoot [] firstId ((rootToken file).relocate g) [] :=
  ⟨rfl, by simp [relocate, start, Forest.create, Forest.empty, Forest.mapPayload, Node.mapPayload,
    nodes, handles, nodesAll], rfl⟩

/-- The tree of some constructs with its tokens moved is the tree of the constructs moved. -/
theorem tree_relocate (g : Place → Place) (firstId : Nat) (file : String) {cs : List Construct}
    {fs : List FunctionParts}
    (h : cs.map (Construct.relocate g) = fs.flatMap FunctionParts.constructs) :
    ((start (.empty firstId) file).addAll cs).tree.mapPayload (Token.relocate g) =
      (node .root ((rootToken file).relocate g) "root" (fs.map FunctionParts.outline)).forest
        firstId := by
  rw [tree_addAll_relocate, h, (atRoot_start_relocate g firstId file).tree_eq_forest]

end SyntaxBuilder

end SlsLang
