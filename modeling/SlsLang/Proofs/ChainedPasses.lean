import SlsLang.Proofs.OutlineMove
import SlsLang.Proofs.PulledRecognition
import SlsLang.Proofs.TreeSchema

namespace SlsLang

/-- One pass: the tokens of a text are pulled one by one, its nodes come behind those of `tree`, and
all that is found wrong comes behind what is in `sink`. -/
def pass (tree : SyntaxTree) (sink : List Diagnostic) (file text : String) : Compilation :=
  let pulled := PulledRecognition.run ⟨⟨.start file text, sink⟩, .function, [], []⟩
  let built := (SyntaxBuilder.start tree file).addAll pulled.constructs
  ⟨built.tree, built.root, declaredSymbols file pulled.constructs, pulled.source.diagnostics⟩

/-- Pass after pass, each over a tree of its own, whose identifiers go on from the tree before, and
all with one sink. -/
def passes (firstId : Nat) (sink : List Diagnostic) : List (String × String) → List Compilation
  | [] => []
  | (file, text) :: sources =>
    let passed := pass (.empty firstId) sink file text
    passed :: passes passed.tree.nextId passed.diagnostics sources

theorem pass_eq_compileInto (tree : SyntaxTree) (sink : List Diagnostic) (file text : String) :
    pass tree sink file text = { compileInto tree file text with
      diagnostics := sink ++ (compileInto tree file text).diagnostics } := by
  obtain ⟨hconstructs, hdiagnostics, -⟩ :=
    PulledRecognition.run_finishes ⟨⟨.start file text, sink⟩, .function, [], []⟩
  have hrecognized : (PulledRecognition.run ⟨⟨.start file text, sink⟩, .function, [], []⟩).constructs =
      (recognize (Lexer.start file text).readings).constructs := hconstructs
  simp only [pass, compileInto, hrecognized, hdiagnostics]
  rfl

/-- The nodes of other texts in the tree change nothing but the handles and identifiers. -/
theorem compileInto_eq_beside (tree : SyntaxTree) (file text : String) :
    compileInto tree file text = { compile file text with
      tree := tree.beside (compile file text).tree
      root := tree.size } := by
  obtain ⟨fs, -, hconstructs, htree, -⟩ := compileInto_eq_forest 0 file text
  have hbuilt := (SyntaxBuilder.atRoot_start_after tree file).addAll_functions fs
  have hbeside := hbuilt.tree.eq_beside
  have hroot := hbuilt.root
  rw [← hconstructs] at hbeside hroot
  have hforest : (compile file text).tree = (programOutline file fs).forest 0 := htree
  rw [hforest]
  simp only [compileInto, compile]
  rw [hbeside, hroot]
  rfl

theorem compileInto_empty (firstId : Nat) (file text : String) :
    compileInto (.empty firstId) file text = { compile file text with
      tree := (compile file text).tree.offsetIds firstId } := by
  have hroot : (compile file text).root = (Forest.empty firstId : SyntaxTree).size :=
    SyntaxBuilder.root_addAll _ _
  rw [compileInto_eq_beside, Forest.empty_beside, ← hroot]

theorem nextId_compile (file text : String) :
    (compile file text).tree.nextId = (compile file text).tree.size := by
  obtain ⟨fs, -, -, htree, -⟩ := compileInto_eq_forest 0 file text
  have hforest : (compile file text).tree = (programOutline file fs).forest 0 := htree
  rw [hforest, Forest.size_forest, Outline.forest, Nat.zero_add]

theorem ids_compile (file text : String) :
    (compile file text).tree.nodes.toList.map Node.id =
      List.range' 0 (compile file text).tree.size := by
  obtain ⟨fs, -, -, htree, -⟩ := compileInto_eq_forest 0 file text
  have hforest : (compile file text).tree = (programOutline file fs).forest 0 := htree
  rw [hforest, Forest.size_forest, Forest.ids_forest]

section Chains

/-- All that comes of some sources by themselves. -/
def compileAlone (sources : List (String × String)) : List Compilation :=
  sources.map fun source => compile source.1 source.2

/-- The number of nodes of some compilations. -/
def nodeCount : List Compilation → Nat
  | [] => 0
  | c :: cs => c.tree.size + nodeCount cs

theorem compileAlone_cons (file text : String) (sources : List (String × String)) :
    compileAlone ((file, text) :: sources) = compile file text :: compileAlone sources := rfl

theorem passes_cons (firstId : Nat) (sink : List Diagnostic) (file text : String)
    (sources : List (String × String)) :
    let c := compile file text
    passes firstId sink ((file, text) :: sources) =
      { c with tree := c.tree.offsetIds firstId, diagnostics := sink ++ c.diagnostics } ::
        passes (firstId + c.tree.size) (sink ++ c.diagnostics) sources := by
  intro c
  rw [passes, pass_eq_compileInto, compileInto_empty]
  simp only [Forest.nextId_offsetIds, nextId_compile]
  rfl

theorem compileAll_cons (firstId : Nat) (file text : String) (sources : List (String × String)) :
    let c := compile file text
    compileAll firstId ((file, text) :: sources) =
      { c with tree := c.tree.offsetIds firstId } ::
        compileAll (firstId + c.tree.size) sources := by
  intro c
  rw [compileAll, compileInto_empty]
  simp only [Forest.nextId_offsetIds, nextId_compile]
  rfl

theorem passes_eq (firstId : Nat) (sink : List Diagnostic) (sources : List (String × String)) :
    passes firstId sink sources = (compileAlone sources).mapIdx fun i c => { c with
      tree := c.tree.offsetIds (firstId + nodeCount ((compileAlone sources).take i))
      diagnostics := sink ++ ((compileAlone sources).take (i + 1)).flatMap (·.diagnostics) } := by
  induction sources generalizing firstId sink with
  | nil => rfl
  | cons source sources ih =>
    obtain ⟨file, text⟩ := source
    rw [passes_cons, ih, compileAlone_cons, List.mapIdx_cons]
    simp [nodeCount, Nat.add_assoc]

theorem compileAll_eq (firstId : Nat) (sources : List (String × String)) :
    compileAll firstId sources = (compileAlone sources).mapIdx fun i c => { c with
      tree := c.tree.offsetIds (firstId + nodeCount ((compileAlone sources).take i)) } := by
  induction sources generalizing firstId with
  | nil => rfl
  | cons source sources ih =>
    obtain ⟨file, text⟩ := source
    rw [compileAll_cons, ih, compileAlone_cons, List.mapIdx_cons]
    simp [nodeCount, Nat.add_assoc]

theorem ids_passes (firstId : Nat) (sink : List Diagnostic) (sources : List (String × String)) :
    (passes firstId sink sources).flatMap (fun c => c.tree.nodes.toList.map Node.id) =
      List.range' firstId (nodeCount (compileAlone sources)) := by
  induction sources generalizing firstId sink with
  | nil => rfl
  | cons source sources ih =>
    obtain ⟨file, text⟩ := source
    have hhead : ((compile file text).tree.offsetIds firstId).nodes.toList.map Node.id =
        List.range' firstId (compile file text).tree.size := by
      rw [Forest.ids_offsetIds, ids_compile, List.map_add_range', Nat.add_zero]
    rw [passes_cons, List.flatMap_cons, ih, hhead, List.range'_append_1, compileAlone_cons, nodeCount]

/-- Passes that are chained by their identifiers and by their sink come to what each of the texts comes
to by itself, with identifiers that go on without gap and with the diagnostics one after the other. A
pass over other nodes keeps them, and its own nodes refer to none of them. -/
theorem passes_independent (firstId : Nat) (sink : List Diagnostic)
    (sources : List (String × String)) :
    let alone := compileAlone sources
    (passes firstId sink sources = alone.mapIdx fun i c => { c with
      tree := c.tree.offsetIds (firstId + nodeCount (alone.take i))
      diagnostics := sink ++ (alone.take (i + 1)).flatMap (·.diagnostics) }) ∧
    (compileAll firstId sources = alone.mapIdx fun i c => { c with
      tree := c.tree.offsetIds (firstId + nodeCount (alone.take i)) }) ∧
    ((passes firstId sink sources).flatMap fun c => c.tree.nodes.toList.map Node.id) =
      List.range' firstId (nodeCount alone) ∧
    ∀ (tree : SyntaxTree) (file text : String),
      let c := pass tree sink file text
      let own := compile file text
      c = { compileInto tree file text with diagnostics := sink ++ own.diagnostics } ∧
      c.tree = tree.beside own.tree ∧ c.root = tree.size ∧ c.symbols = own.symbols ∧
      c.tree.nodes.toList.take tree.size = tree.nodes.toList ∧
      ∀ h node, tree.size ≤ h → c.tree.get? h = some node →
        (∀ p, node.parent? = some p → tree.size ≤ p) ∧
        ∀ child ∈ node.children, tree.size ≤ child := by
  intro alone
  refine ⟨passes_eq firstId sink sources, compileAll_eq firstId sources,
    ids_passes firstId sink sources, fun tree file text => ?_⟩
  rw [pass_eq_compileInto, compileInto_eq_beside]
  refine ⟨rfl, rfl, rfl, rfl, Forest.take_beside _ _, fun h node hle hnode => ?_⟩
  rw [Forest.get?_beside_of_le hle] at hnode
  obtain ⟨n, -, rfl⟩ := Option.map_eq_some_iff.mp hnode
  constructor
  · intro p hp
    obtain ⟨q, -, rfl⟩ := Option.map_eq_some_iff.mp hp
    exact Nat.le_add_left _ q
  · intro child hchild
    obtain ⟨q, -, rfl⟩ := Array.mem_map.mp hchild
    exact Nat.le_add_left _ q

end Chains

end SlsLang
