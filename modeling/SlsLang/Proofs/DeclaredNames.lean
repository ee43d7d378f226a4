import SlsLang.Proofs.ModuleName
import SlsLang.Proofs.NoticeLines

namespace SlsLang

/-- Functions, parameters and variables are declared under their names. -/
def SyntaxKind.declares : SyntaxKind → Bool
  | functionDecl | paramVarDecl | varDecl => true
  | _ => false

def Node.declared? (n : SyntaxNode) : Option String := if n.kind.declares then some n.name else none

/-- The names that the nodes of a tree declare, in the order of creation. -/
def declaredNames (tree : SyntaxTree) : List String := tree.nodes.toList.filterMap Node.declared?

namespace Forest

variable {K P : Type}

/-- Linking changes nothing of a node but its place. -/
theorem map_bare_link (f : Forest K P) (parent child : Handle) :
    (f.link parent child).nodes.toList.map Node.bare = f.nodes.toList.map Node.bare := by
  refine List.ext_getElem? fun h => ?_
  have hget : (f.link parent child).nodes.toList[h]? = (f.link parent child).get? h :=
    Array.getElem?_toList
  have hget' : f.nodes.toList[h]? = f.get? h := Array.getElem?_toList
  rw [List.getElem?_map, List.getElem?_map, hget, hget', get?_link, Option.map_map]
  rfl

theorem map_bare_append (f : Forest K P) (parent : Handle) (kind : K) (payload : P)
    (name : String) : (f.append parent kind payload name).nodes.toList.map Node.bare =
      f.nodes.toList.map Node.bare ++ [⟨0, kind, payload, name, none, #[]⟩] := by
  have hcreate : (f.create kind payload name).nodes.toList.map Node.bare =
      f.nodes.toList.map Node.bare ++ [⟨0, kind, payload, name, none, #[]⟩] := by
    rw [create, Array.toList_push, List.map_append]
    rfl
  simp only [append]
  split
  · rw [map_bare_link, hcreate]
  · exact hcreate

end Forest

theorem declaredNames_eq (tree : SyntaxTree) :
    declaredNames tree = (tree.nodes.toList.map Node.bare).filterMap Node.declared? := by
  rw [List.filterMap_map]
  rfl

theorem declaredNames_append (tree : SyntaxTree) (parent : Handle) (kind : SyntaxKind) (t : Token)
    (name : String) : declaredNames (tree.append parent kind t name) =
      declaredNames tree ++ if kind.declares then [name] else [] := by
  rw [declaredNames_eq, declaredNames_eq, Forest.map_bare_append, List.filterMap_append]
  cases hd : kind.declares <;> simp [Node.declared?, hd]

/-- The kinds of nodes that stand for values declare nothing. -/
theorem not_declares_of_forValue? {t : TokenKind} {kind : SyntaxKind}
    (h : SyntaxKind.forValue? t = some kind) : kind.declares = false := by
  have hvalue := SyntaxKind.isValue_of_forValue? h
  cases kind with
  | functionDecl | paramVarDecl | varDecl => simp [SyntaxKind.isValue, SyntaxKind.isLiteral] at hvalue
  | _ => rfl

theorem declaredNames_appendValue (tree : SyntaxTree) (parent : Handle) (value : Token) :
    declaredNames (appendValue tree parent value) = declaredNames tree := by
  unfold appendValue
  cases hkind : SyntaxKind.forValue? value.kind with
  | none => rfl
  | some kind => simp [declaredNames_append, not_declares_of_forValue? hkind]

theorem declaredNames_appendStatement (tree : SyntaxTree) (parent : Handle) (s : Statement) :
    declaredNames (appendStatement tree parent s) =
      declaredNames tree ++ (Construct.statement s).declared?.toList := by
  cases s with
  | declaration name type init? =>
    cases init? <;> simp [appendStatement, declaredNames_append, declaredNames_appendValue,
      SyntaxKind.declares, Construct.declared?]
  | assignment target value =>
    simp [appendStatement, declaredNames_append, declaredNames_appendValue, SyntaxKind.declares,
      Construct.declared?]
  | call head callee arguments =>
    have hvalues : ∀ (called : SyntaxTree) (first : Handle), declaredNames (arguments.foldl
        (fun called argument => appendValue called first argument) called) =
          declaredNames called := by
      intro called first
      induction arguments generalizing called with
      | nil => rfl
      | cons argument arguments ih => rw [List.foldl_cons, ih, declaredNames_appendValue]
    simp [appendStatement, hvalues, declaredNames_append, SyntaxKind.declares, Construct.declared?]

namespace SyntaxBuilder

/-- The nodes that a construct brings declare the name that the construct declares. -/
theorem declaredNames_add (b : SyntaxBuilder) (c : Construct) :
    declaredNames (b.add c).tree = declaredNames b.tree ++ c.declared?.toList := by
  cases c with
  | function name | parameter type name | body brace =>
    simp [add, declaredNames_append, SyntaxKind.declares, Construct.declared?]
  | statement s => exact declaredNames_appendStatement b.tree b.body s

theorem declaredNames_addAll (b : SyntaxBuilder) (cs : List Construct) :
    declaredNames (b.addAll cs).tree =
      declaredNames b.tree ++ cs.filterMap Construct.declared? := by
  induction cs generalizing b with
  | nil => simp [addAll_nil]
  | cons c cs ih =>
    rw [addAll_cons, ih, declaredNames_add, List.append_assoc, List.filterMap_cons]
    cases c.declared? <;> rfl

end SyntaxBuilder

theorem declaredNames_compileInto (firstId : Nat) (file text : String) :
    declaredNames (compileInto (.empty firstId) file text).tree =
      (recognize (Lexer.start file text).readings).constructs.filterMap Construct.declared? :=
  (SyntaxBuilder.start (.empty firstId) file).declaredNames_addAll _

theorem declaredNames_eq_nil_iff (tree : SyntaxTree) :
    declaredNames tree = [] ↔ ∀ n ∈ tree.nodes.toList, n.kind.declares = false := by
  simp [declaredNames, Node.declared?]

theorem declaredSymbols_of_nil (file : String) {cs : List Construct}
    (h : cs.filterMap Construct.declared? = []) : declaredSymbols file cs = [] := by
  rw [declaredSymbols, h]

theorem declaredSymbols_of_ne_nil (file : String) {cs : List Construct}
    (h : cs.filterMap Construct.declared? ≠ []) :
    declaredSymbols file cs = [(fileStem file, cs.filterMap Construct.declared?)] := by
  obtain ⟨name, names, hnames⟩ := List.exists_cons_of_ne_nil h
  rw [declaredSymbols, hnames]

/-- The symbol table of a text is told by its tree: it is empty where no node of the tree declares
anything, and has one module otherwise, with the names of all nodes that do, as they were created. -/
theorem compile_symbols (firstId : Nat) (file text : String) :
    let c := compileInto (.empty firstId) file text
    ((∀ n ∈ c.tree.nodes.toList, n.kind.declares = false) → c.symbols = []) ∧
    ((∃ n ∈ c.tree.nodes.toList, n.kind.declares = true) →
      c.symbols = [(fileStem file, declaredNames c.tree)]) ∧
    ∀ stem, NamesModule file.toList stem ↔ stem = (fileStem file).toList := by
  intro c
  have hnames := declaredNames_compileInto firstId file text
  refine ⟨?_, ?_, namesModule_iff file⟩
  · intro hnone
    refine declaredSymbols_of_nil file ?_
    rw [← hnames]
    exact (declaredNames_eq_nil_iff c.tree).mpr hnone
  · rintro ⟨n, hn, hdeclares⟩
    have hne : declaredNames c.tree ≠ [] := by
      intro hnil
      simp [(declaredNames_eq_nil_iff c.tree).mp hnil n hn] at hdeclares
    rw [hnames] at hne ⊢
    exact declaredSymbols_of_ne_nil file hne

end SlsLang
