import Mathlib.Data.List.TakeWhile
import SlsLang.Compilation
import SlsLang.Proofs.FunctionSequence
import SlsLang.Proofs.OutlineForest

namespace SlsLang

open Outline

namespace SyntaxKind

/-- What may stand below a node of each kind, in this order. -/
def admits : SyntaxKind → List SyntaxKind → Bool
  | root, below => below.all (· == functionDecl)
  | functionDecl, below =>
    let rest := below.dropWhile (· == paramVarDecl)
    rest == [] || rest == [compoundStatement]
  | paramVarDecl, below => below == [typeRef]
  | compoundStatement, below =>
    below.all fun kind => kind == declStatement || kind == assignment || kind == callExpr
  | declStatement, below => below == [varDecl]
  | varDecl, below =>
    below.head? == some typeRef && below.tail.length ≤ 1 && below.tail.all isValue
  | assignment, below => below.length == 1 && below.all isValue
  | callExpr, below => below.all isValue
  | _, below => below.isEmpty

theorem isValue_of_forValue? {t : TokenKind} {kind : SyntaxKind} (h : forValue? t = some kind) :
    kind.isValue = true := by
  cases t <;> simp [forValue?] at h <;> subst h <;> rfl

theorem admits_nil_of_isValue {kind : SyntaxKind} (h : kind.isValue = true) :
    kind.admits [] = true := by
  cases kind with
  | paramVarDecl | declStatement | varDecl | assignment => simp [isValue, isLiteral] at h
  | _ => rfl

theorem admits_functionDecl (n : Nat) {rest : List SyntaxKind}
    (h : rest = [] ∨ rest = [compoundStatement]) :
    functionDecl.admits (List.replicate n paramVarDecl ++ rest) = true := by
  have hdrop : (List.replicate n paramVarDecl ++ rest).dropWhile (· == paramVarDecl) = rest := by
    rw [List.dropWhile_append_of_pos (by simp)]
    rcases h with rfl | rfl <;> rfl
  rcases h with rfl | rfl <;> simp [admits, hdrop]

theorem ne_root_of_isValue {kind : SyntaxKind} (h : kind.isValue = true) : kind ≠ root := by
  rintro rfl
  simp [isValue, isLiteral] at h

/-- Nothing admits a root below it. -/
theorem ne_root_of_admits {kind : SyntaxKind} {below : List SyntaxKind}
    (h : kind.admits below = true) : ∀ k ∈ below, k ≠ root := by
  intro k hk
  cases kind with
  | root =>
    have hall := List.all_eq_true.mp h k hk
    rintro rfl
    simp at hall
  | functionDecl =>
    have hrest : below.dropWhile (· == paramVarDecl) = [] ∨
        below.dropWhile (· == paramVarDecl) = [compoundStatement] := by simpa [admits] using h
    rw [← List.takeWhile_append_dropWhile (p := (· == paramVarDecl)) (l := below)] at hk
    rcases List.mem_append.mp hk with hk | hk
    · have hparameter := List.mem_takeWhile_imp hk
      rintro rfl
      simp at hparameter
    · rcases hrest with hrest | hrest <;> rw [hrest] at hk <;> simp_all
  | paramVarDecl | declStatement => simp_all [admits]
  | compoundStatement =>
    have hall := List.all_eq_true.mp h k hk
    rintro rfl
    simp at hall
  | varDecl =>
    simp only [admits, Bool.and_eq_true, beq_iff_eq, List.all_eq_true] at h
    cases below with
    | nil => simp at hk
    | cons type values =>
      rcases List.mem_cons.mp hk with rfl | hk
      · simp_all
      · exact ne_root_of_isValue (h.2 k hk)
  | assignment =>
    simp only [admits, Bool.and_eq_true, List.all_eq_true] at h
    exact ne_root_of_isValue (h.2 k hk)
  | callExpr => exact ne_root_of_isValue (List.all_eq_true.mp h k hk)
  | _ => simp_all [admits]

end SyntaxKind

/-- An outline as recognition makes it: what stands below its first node may stand there, and a value
is of the kind that its token asks for. -/
structure Outline.Lawful (o : SyntaxOutline) : Prop where
  schema : o.kind.admits (o.children.map Outline.kind) = true
  value : o.kind.isValue = true → SyntaxKind.forValue? o.payload.kind = some o.kind

theorem lawful_of_admits {o : SyntaxOutline} (hk : o.kind.isValue = false)
    (h : o.kind.admits (o.children.map Outline.kind) = true) : o.Lawful :=
  ⟨h, fun hv => by simp [hk] at hv⟩

theorem valueOutlines_of_isValue {v : Token} (h : v.isValue = true) :
    ∃ kind, SyntaxKind.forValue? v.kind = some kind ∧ kind.isValue = true ∧
      valueOutlines v = [.node kind v v.text []] := by
  obtain ⟨kind, hkind⟩ := Option.isSome_iff_exists.mp ((isSome_forValue? v).trans h)
  exact ⟨kind, hkind, SyntaxKind.isValue_of_forValue? hkind, by rw [valueOutlines, hkind]⟩

/-- The first node of a value is of a kind that stands for values. -/
structure Outline.IsValue (o : SyntaxOutline) : Prop where
  kind : o.kind.isValue = true
  lawful : ∀ part ∈ o.parts, part.Lawful

theorem isValue_valueOutlines {vs : List Token} (h : ∀ v ∈ vs, v.isValue = true) :
    ∀ o ∈ vs.flatMap valueOutlines, o.IsValue := by
  intro o ho
  obtain ⟨v, hv, ho⟩ := List.mem_flatMap.mp ho
  obtain ⟨kind, hkind, hvalue, heq⟩ := valueOutlines_of_isValue (h v hv)
  rw [heq] at ho
  obtain rfl := List.mem_singleton.mp ho
  refine ⟨hvalue, forall_parts ⟨SyntaxKind.admits_nil_of_isValue hvalue, fun _ => hkind⟩ ?_⟩
  simp

theorem all_isValue_map_kind {os : List SyntaxOutline} (h : ∀ o ∈ os, o.IsValue) :
    (os.map Outline.kind).all SyntaxKind.isValue = true := by
  simpa using fun o ho => (h o ho).kind

theorem lawful_type (type : Token) :
    ∀ part ∈ (node .typeRef type type.text [] : SyntaxOutline).parts, part.Lawful :=
  forall_parts (lawful_of_admits rfl rfl) (by simp)

theorem lawful_statement {s : Statement} (h : s.Sound) : ∀ part ∈ s.outline.parts, part.Lawful := by
  have hvalues := isValue_valueOutlines h
  have hkinds := all_isValue_map_kind hvalues
  have hlawful : ∀ o ∈ s.values.flatMap valueOutlines, ∀ part ∈ o.parts, part.Lawful :=
    fun o ho => (hvalues o ho).lawful
  cases s with
  | declaration name type init? =>
    have hone : (init?.toList.flatMap valueOutlines).length ≤ 1 := by
      cases init? with
      | none => simp
      | some init =>
        obtain ⟨_, _, _, hinit⟩ := valueOutlines_of_isValue (h init (by simp [Statement.values]))
        simp [hinit]
    have hadmits : SyntaxKind.varDecl.admits (.typeRef :: (init?.toList.flatMap valueOutlines).map
        Outline.kind) = true := by
      simp only [Statement.values] at hkinds
      rw [SyntaxKind.admits, List.tail_cons, hkinds, List.length_map, decide_eq_true hone]
      rfl
    refine forall_parts (lawful_of_admits rfl rfl) ?_
    rw [List.forall_mem_singleton]
    exact forall_parts (lawful_of_admits rfl hadmits)
      (List.forall_mem_cons.mpr ⟨lawful_type type, hlawful⟩)
  | assignment target value =>
    have hone : (valueOutlines value).length = 1 := by
      obtain ⟨_, _, _, hvalue⟩ := valueOutlines_of_isValue (h value (by simp [Statement.values]))
      rw [hvalue]
      rfl
    simp only [Statement.values, List.flatMap_singleton] at hkinds hlawful
    have hadmits : SyntaxKind.assignment.admits ((valueOutlines value).map Outline.kind) = true := by
      rw [SyntaxKind.admits, List.length_map, hone, hkinds]
      rfl
    exact forall_parts (lawful_of_admits rfl hadmits) hlawful
  | call head callee arguments => exact forall_parts (lawful_of_admits rfl hkinds) hlawful

theorem kind_statement (s : Statement) : s.outline.kind = .declStatement ∨
    s.outline.kind = .assignment ∨ s.outline.kind = .callExpr := by
  cases s <;> simp [Statement.outline, Outline.kind]

theorem lawful_parameter (type name : Token) :
    ∀ part ∈ (parameterOutline type name).parts, part.Lawful := by
  refine forall_parts (lawful_of_admits rfl rfl) ?_
  rw [List.forall_mem_singleton]
  exact lawful_type type

theorem lawful_body (brace : Token) {ss : List Statement} (h : ∀ s ∈ ss, s.Sound) :
    ∀ part ∈ (node .compoundStatement brace "body" (ss.map Statement.outline)).parts,
      part.Lawful := by
  refine forall_parts (lawful_of_admits rfl ?_) ?_
  · simpa [Outline.kind, Outline.children, SyntaxKind.admits, or_assoc] using
      fun s _ => kind_statement s
  · rw [List.forall_mem_map]
    exact fun s hs => lawful_statement (h s hs)

theorem lawful_function {f : FunctionParts} (h : f.Sound) :
    ∀ part ∈ f.outline.parts, part.Lawful := by
  have hparameters : (f.parameters.map fun p => parameterOutline p.1 p.2).map Outline.kind =
      List.replicate f.parameters.length .paramVarDecl := by
    rw [List.map_map]
    exact List.map_const'
  refine forall_parts (lawful_of_admits rfl ?_) ?_
  · rw [Outline.children, List.map_append, hparameters]
    apply SyntaxKind.admits_functionDecl
    cases f.body? with
    | none => exact .inl rfl
    | some b => exact .inr rfl
  · refine List.forall_mem_append.mpr ⟨?_, ?_⟩
    · rw [List.forall_mem_map]
      exact fun p _ => lawful_parameter p.1 p.2
    · rw [List.forall_mem_map]
      exact fun b hb => lawful_body b.1 (h b (Option.mem_toList.mp hb))

/-- What is recognized of a text, as one outline. -/
def programOutline (file : String) (fs : List FunctionParts) : SyntaxOutline :=
  .node .root (rootToken file) "root" (fs.map FunctionParts.outline)

theorem lawful_program (file : String) {fs : List FunctionParts} (h : ∀ f ∈ fs, f.Sound) :
    ∀ part ∈ (programOutline file fs).parts, part.Lawful := by
  refine forall_parts (lawful_of_admits rfl ?_) ?_
  · simp [Outline.kind, Outline.children, SyntaxKind.admits, FunctionParts.outline]
  · rw [List.forall_mem_map]
    exact fun f hf => lawful_function (h f hf)

/-- The tree of a text shows the functions that are recognized, and nothing more. -/
theorem compileInto_eq_forest (firstId : Nat) (file text : String) :
    ∃ fs : List FunctionParts, (∀ f ∈ fs, f.Sound) ∧
      (recognize (Lexer.start file text).readings).constructs =
        fs.flatMap FunctionParts.constructs ∧
      (compileInto (.empty firstId) file text).tree = (programOutline file fs).forest firstId ∧
      (compileInto (.empty firstId) file text).root = 0 := by
  obtain ⟨fs, hfs, hconstructs⟩ := exists_functions (Lexer.start file text).readings
  refine ⟨fs, hfs, hconstructs, ?_, SyntaxBuilder.root_addAll _ _⟩
  simp only [compileInto, hconstructs]
  exact (SyntaxBuilder.atRoot_start firstId file).tree_eq_forest fs

/-- A tree with one root, where every node stands above what it admits, and every value is of the
kind that its token asks for. All children are nodes of the tree. -/
structure ObeysSchema (tree : SyntaxTree) (root : Handle) : Prop where
  atRoot : ∃ node, tree.get? root = some node ∧ node.kind = .root
  onlyRoot : ∀ h node, tree.get? h = some node → node.kind = .root → h = root
  children : ∀ h node, tree.get? h = some node → ∃ below : List SyntaxNode,
    node.children.toList.map tree.get? = below.map some ∧
    node.kind.admits (below.map Node.kind) = true
  value : ∀ h node, tree.get? h = some node → node.kind.isValue = true →
    SyntaxKind.forValue? node.payload.kind = some node.kind

/-- However malformed a text is, and whichever identifier its tree starts from, the tree obeys the
schema of the syntax. -/
theorem compile_obeysSchema (firstId : Nat) (file text : String) :
    let compiled := compileInto (.empty firstId) file text
    ObeysSchema compiled.tree compiled.root := by
  intro compiled
  obtain ⟨fs, hfs, _, htree, hroot⟩ := compileInto_eq_forest firstId file text
  have hlawful := lawful_program file hfs
  rw [htree, hroot]
  refine ⟨⟨_, (Forest.shows_forest firstId (programOutline file fs)).1, rfl⟩, ?_, ?_, ?_⟩
  · intro h node hnode hkind
    cases h with
    | zero => rfl
    | succ h =>
      obtain ⟨part, hpart, hdraws⟩ := Forest.exists_draws_below hnode
      obtain ⟨whole, hwhole, hchild⟩ := exists_whole hpart
      have hne := SyntaxKind.ne_root_of_admits (hlawful whole hwhole).schema part.kind
        (List.mem_map_of_mem hchild)
      exact (hne (hdraws.kind ▸ hkind)).elim
  · intro h node hnode
    obtain ⟨_, part, hpart, hdraws⟩ := Forest.exists_draws hnode
    obtain ⟨below, hbelow, hkinds, _⟩ := hdraws.children
    exact ⟨below, hbelow, by rw [hkinds, hdraws.kind, (hlawful part hpart).schema]⟩
  · intro h node hnode hvalue
    obtain ⟨_, part, hpart, hdraws⟩ := Forest.exists_draws hnode
    rw [hdraws.kind] at hvalue ⊢
    rw [hdraws.payload]
    exact (hlawful part hpart).value hvalue

end SlsLang
