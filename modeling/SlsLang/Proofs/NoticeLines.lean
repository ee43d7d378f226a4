import SlsLang.Proofs.PulledRecognition
import SlsLang.Proofs.TreeSchema

namespace SlsLang

open Outline

/-- The lines of a report that a statement is worth, told by its tokens alone. -/
def Statement.notices : Statement → List String
  | .declaration name type none => ["var declaration: " ++ name.text ++ " " ++ type.text]
  | .declaration name type (some init) =>
    ["var declaration: " ++ name.text ++ " with type " ++ type.text,
      "assignment: " ++ name.text ++ " = " ++ init.text ++ " <- " ++ init.kind.name]
  | .assignment target value => ["assignment: " ++ target.text ++ " = " ++ value.text]
  | .call _ callee arguments => ("function call: " ++ callee) :: arguments.map ("param: " ++ ·.text)

def Construct.notices : Construct → List String
  | .function name => ["function: " ++ name.text]
  | .parameter type name => ["parameter: " ++ type.text ++ " " ++ name.text]
  | .body _ => []
  | .statement s => s.notices

namespace Node

variable {K P : Type}

/-- A node without its place in a forest. -/
def bare (n : Node K P) : Node K P := ⟨0, n.kind, n.payload, n.name, none, #[]⟩

end Node

namespace Outline

variable {K P : Type}

def bare : Outline K P → Node K P
  | node kind payload name _ => ⟨0, kind, payload, name, none, #[]⟩

/-- What a report says of the first node of an outline. -/
def ownNotices (o : SyntaxOutline) : List String := noticesOf o.bare (o.children.map bare)

/-- What a report says of all that an outline holds. -/
def report (o : SyntaxOutline) : List String := o.parts.flatMap ownNotices

theorem flatMap_parts_node {α : Type} (f : Outline K P → List α) (kind : K) (payload : P)
    (name : String) (below : List (Outline K P)) : (node kind payload name below).parts.flatMap f =
      f (node kind payload name below) ++ below.flatMap fun o => o.parts.flatMap f := by
  rw [parts, List.flatMap_cons, partsAll_eq_flatMap, List.flatMap_assoc]

theorem report_node (kind : SyntaxKind) (payload : Token) (name : String)
    (below : List SyntaxOutline) : report (node kind payload name below) =
      ownNotices (node kind payload name below) ++ below.flatMap report :=
  flatMap_parts_node ownNotices kind payload name below

/-- What `f` takes from the parts of an outline is what `g` takes from the constructs it comes of. -/
structure TakesAlike {α : Type} (f : SyntaxOutline → List α) (g : Construct → List α) : Prop where
  root : ∀ file below, f (node .root (rootToken file) "root" below) = []
  function : ∀ name below, f (node .functionDecl name name.text below) = g (.function name)
  parameter : ∀ type name, (parameterOutline type name).parts.flatMap f = g (.parameter type name)
  body : ∀ brace below, f (node .compoundStatement brace "body" below) = g (.body brace)
  statement : ∀ s : Statement, s.Sound → s.outline.parts.flatMap f = g (.statement s)

namespace TakesAlike

variable {α : Type} {f : SyntaxOutline → List α} {g : Construct → List α}

theorem flatMap_function (h : TakesAlike f g) {p : FunctionParts} (hp : p.Sound) :
    p.outline.parts.flatMap f = p.constructs.flatMap g := by
  have hparameters :
      (p.parameters.map fun q => parameterOutline q.1 q.2).flatMap (fun o => o.parts.flatMap f) =
        (p.parameters.map fun q => Construct.parameter q.1 q.2).flatMap g := by
    rw [List.flatMap_map, List.flatMap_map]
    exact List.flatMap_congr fun q _ => h.parameter q.1 q.2
  have hbody : ∀ (brace : Token) (ss : List Statement), (∀ s ∈ ss, s.Sound) →
      (node .compoundStatement brace "body" (ss.map Statement.outline)).parts.flatMap f =
        (Construct.body brace :: ss.map Construct.statement).flatMap g := by
    intro brace ss hss
    rw [flatMap_parts_node, h.body, List.flatMap_map, List.flatMap_cons, List.flatMap_map]
    exact congrArg _ (List.flatMap_congr fun s hs => h.statement s (hss s hs))
  rw [FunctionParts.outline, flatMap_parts_node, h.function, FunctionParts.constructs,
    List.flatMap_append, List.flatMap_cons, List.flatMap_append, hparameters]
  cases hb : p.body? with
  | none => rfl
  | some b =>
    rw [Option.toList_some, List.map_singleton, List.flatMap_singleton, List.flatMap_singleton,
      hbody b.1 b.2 (hp b hb)]

theorem flatMap_program (h : TakesAlike f g) (file : String) {fs : List FunctionParts}
    (hfs : ∀ p ∈ fs, p.Sound) : (programOutline file fs).parts.flatMap f =
      (fs.flatMap FunctionParts.constructs).flatMap g := by
  rw [programOutline, flatMap_parts_node, h.root, List.nil_append, List.flatMap_map,
    List.flatMap_assoc]
  exact List.flatMap_congr fun p hp => h.flatMap_function (hfs p hp)

end TakesAlike

end Outline

/-- A report looks at kinds, tokens and names only. -/
theorem noticesOf_bare (node : SyntaxNode) (children : List SyntaxNode) :
    noticesOf node.bare (children.map Node.bare) = noticesOf node children := by
  have htype : typeName (children.map Node.bare) = typeName children := by
    simp only [typeName, List.find?_map, Option.map_map]
    rfl
  have hinit : (children.map Node.bare).find? (·.kind.isValue) =
      (children.find? (·.kind.isValue)).map Node.bare := List.find?_map ..
  simp only [noticesOf, htype, hinit, List.head?_map, Option.map_map, List.map_map]
  cases node with
  | mk id kind payload name parent? below =>
    cases kind with
    | varDecl =>
      cases children.find? (·.kind.isValue) with
      | none => rfl
      | some init => rfl
    | _ => rfl

theorem map_bare_childNodes {tree : SyntaxTree} {parent h id : Nat} {os : List SyntaxOutline}
    (hf : tree.ShowsAll parent h id os) :
    ((handles h os).filterMap tree.get?).map Node.bare = os.map Outline.bare := by
  induction os generalizing h id with
  | nil => rfl
  | cons o os ih =>
    have htail := ih hf.2
    cases o with
    | node kind payload name below =>
      have hhead := hf.1.1
      rw [handles, List.filterMap_cons_some hhead, List.map_cons, htail]
      rfl

/-- Where an outline stands in a tree, the report says of the node there what it says of the outline. -/
theorem noticesOf_of_shows {tree : SyntaxTree} {parent? : Option Handle} {h id : Nat}
    {o : SyntaxOutline} (hf : tree.Shows parent? h id o) :
    ((tree.get? h).map fun node => noticesOf node (childNodes tree node)).getD [] = o.ownNotices := by
  cases o with
  | node kind payload name below =>
    obtain ⟨hget, hbelow⟩ := hf
    rw [hget, Option.map_some, Option.getD_some, ← noticesOf_bare, childNodes,
      map_bare_childNodes hbelow]
    rfl

theorem notices_forest (firstId : Nat) (o : SyntaxOutline) :
    notices (o.forest firstId) 0 = unlines o.report := by
  rw [notices, Forest.descendants_forest]
  exact congrArg unlines
    (Forest.flatMap_visits noticesOf_of_shows (Forest.shows_forest firstId o) 0)

/-- A value is reported where it is used, and makes no line of its own. -/
theorem report_values {vs : List Token} (h : ∀ v ∈ vs, v.isValue = true) :
    (vs.flatMap valueOutlines).flatMap report = [] := by
  rw [List.flatMap_eq_nil_iff]
  intro o ho
  obtain ⟨v, hv, ho⟩ := List.mem_flatMap.mp ho
  obtain ⟨kind, _, hvalue, heq⟩ := valueOutlines_of_isValue (h v hv)
  rw [heq] at ho
  obtain rfl := List.mem_singleton.mp ho
  rw [report_node]
  cases kind <;> simp [SyntaxKind.isValue, SyntaxKind.isLiteral] at hvalue <;> rfl

theorem payload_bare_values {vs : List Token} (h : ∀ v ∈ vs, v.isValue = true) :
    ((vs.flatMap valueOutlines).map Outline.bare).map Node.payload = vs := by
  induction vs with
  | nil => rfl
  | cons v vs ih =>
    obtain ⟨hv, hvs⟩ := List.forall_mem_cons.mp h
    obtain ⟨_, _, _, heq⟩ := valueOutlines_of_isValue hv
    rw [List.flatMap_cons, heq, List.singleton_append, List.map_cons, List.map_cons, ih hvs]
    rfl

theorem report_statement {s : Statement} (h : s.Sound) : s.outline.report = s.notices := by
  have hnone := report_values h
  have hpayload := payload_bare_values h
  cases s with
  | declaration name type init? =>
    have htype : report (node .typeRef type type.text []) = [] := rfl
    simp only [Statement.values] at hnone
    rw [Statement.outline, report_node, List.flatMap_singleton, report_node, List.flatMap_cons,
      htype, hnone]
    cases init? with
    | none => rfl
    | some init =>
      obtain ⟨kind, _, hvalue, heq⟩ := valueOutlines_of_isValue (h init (by simp [Statement.values]))
      have hfirst : ownNotices (node .varDecl name name.text
          [node .typeRef type type.text [], node kind init init.text []]) =
            (Statement.declaration name type (some init)).notices := by
        have htypeRef : SyntaxKind.typeRef.isValue = false := rfl
        simp [ownNotices, noticesOf, Outline.children, bare, typeName, htypeRef, hvalue,
          Statement.notices]
      rw [Option.toList_some, List.flatMap_singleton, heq, hfirst]
      rfl
  | assignment target value =>
    obtain ⟨kind, _, _, heq⟩ := valueOutlines_of_isValue (h value (by simp [Statement.values]))
    simp only [Statement.values, List.flatMap_singleton] at hnone
    rw [Statement.outline, report_node, hnone, heq]
    rfl
  | call head callee arguments =>
    simp only [Statement.values] at hnone hpayload
    have hfirst : ownNotices (node .callExpr head callee (arguments.flatMap valueOutlines)) =
        ("function call: " ++ callee) ::
          (((arguments.flatMap valueOutlines).map Outline.bare).map Node.payload).map
            ("param: " ++ ·.text) := by
      rw [List.map_map]
      rfl
    rw [Statement.outline, report_node, hnone, hfirst, hpayload, List.append_nil]
    rfl

theorem notices_takesAlike : TakesAlike ownNotices Construct.notices where
  root _ _ := rfl
  function _ _ := rfl
  parameter _ _ := rfl
  body _ _ := rfl
  statement _ hs := report_statement hs

/-- What is recognized of a text is what its report tells, construct by construct. -/
theorem notices_compileInto (firstId : Nat) (file text : String) :
    (compileInto (.empty firstId) file text).notices =
      unlines ((recognize (Lexer.start file text).readings).constructs.flatMap
        Construct.notices) := by
  obtain ⟨fs, hfs, hconstructs, htree, hroot⟩ := compileInto_eq_forest firstId file text
  rw [Compilation.notices, htree, hroot, notices_forest, hconstructs,
    ← notices_takesAlike.flatMap_program file hfs]
  rfl

/-- The report has the lines of the constructs in the order in which a recognizer that pulls token by
token accepts them, although it is written from the tree: none is lost, doubled or moved. -/
theorem compile_notices (firstId : Nat) (file text : String) :
    let p := (PulledRecognition.start file text).run
    (compileInto (.empty firstId) file text).notices =
      unlines (p.constructs.flatMap Construct.notices) := by
  intro p
  have hpulled : p.constructs = (recognize (Lexer.start file text).readings).constructs :=
    (PulledRecognition.start file text).run_finishes.constructs
  rw [hpulled, notices_compileInto]

end SlsLang
