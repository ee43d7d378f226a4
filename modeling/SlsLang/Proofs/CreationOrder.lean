import Mathlib.Data.List.Flatten
import SlsLang.Proofs.SourceOrder
import SlsLang.Proofs.TreeSchema

namespace SlsLang

open Outline

/-- What stands right below the first node comes from tokens of `ts`, in their order. -/
def Outline.Keeps (ts : List Token) (o : SyntaxOutline) : Prop :=
  (o.children.map Outline.payload).Sublist ts

theorem keeps_mono {ts us : List Token} {o : SyntaxOutline} (h : o.Keeps ts) (hts : ts.Sublist us) :
    o.Keeps us := List.Sublist.trans h hts

/-- Things that each come from some of their tokens come from all of these tokens. -/
theorem map_sublist_flatMap {α : Type} {f : α → Token} {g : α → List Token} (xs : List α)
    (h : ∀ x, f x ∈ g x) : (xs.map f).Sublist (xs.flatMap g) := by
  rw [← List.flatMap_singleton' (xs.map f), List.flatMap_map]
  exact List.Sublist.flatMap_right xs fun x _ => List.singleton_sublist.mpr (h x)

theorem keeps_leaf (ts : List Token) (kind : SyntaxKind) (payload : Token) (name : String) :
    ∀ part ∈ (node kind payload name [] : SyntaxOutline).parts, part.Keeps ts :=
  forall_parts (List.nil_sublist ts) (by simp)

theorem keeps_values (ts vs : List Token) :
    ∀ o ∈ vs.flatMap valueOutlines, ∀ part ∈ o.parts, part.Keeps ts := by
  intro o ho
  obtain ⟨v, _, ho⟩ := List.mem_flatMap.mp ho
  unfold valueOutlines at ho
  split at ho
  · obtain rfl := List.mem_singleton.mp ho
    exact keeps_leaf ts _ _ _
  · simp at ho

theorem payload_values_sublist (vs : List Token) :
    ((vs.flatMap valueOutlines).map Outline.payload).Sublist vs := by
  induction vs with
  | nil => exact .slnil
  | cons v vs ih =>
    rw [List.flatMap_cons, List.map_append]
    unfold valueOutlines
    split
    · exact ih.cons_cons v
    · exact ih.cons v

theorem keeps_statement (s : Statement) : ∀ part ∈ s.outline.parts, part.Keeps s.tokens := by
  cases s with
  | declaration name type init? =>
    have hvalues := payload_values_sublist init?.toList
    refine forall_parts (List.singleton_sublist.mpr List.mem_cons_self) ?_
    rw [List.forall_mem_singleton]
    exact forall_parts ((hvalues.cons_cons type).cons name)
      (List.forall_mem_cons.mpr ⟨keeps_leaf _ _ _ _, keeps_values _ _⟩)
  | assignment target value =>
    have hvalues := payload_values_sublist [value]
    have hparts := keeps_values [target, value] [value]
    rw [List.flatMap_singleton] at hvalues hparts
    exact forall_parts (hvalues.cons target) hparts
  | call head callee arguments =>
    exact forall_parts ((payload_values_sublist arguments).cons head) (keeps_values _ _)

theorem payload_statement (s : Statement) : s.outline.payload ∈ s.tokens := by
  cases s <;> exact List.mem_cons_self

theorem keeps_parameter (type name : Token) :
    ∀ part ∈ (parameterOutline type name).parts, part.Keeps [type, name] := by
  refine forall_parts (List.singleton_sublist.mpr List.mem_cons_self) ?_
  rw [List.forall_mem_singleton]
  exact keeps_leaf _ _ _ _

/-- The tokens that a function keeps, in the order of the text. -/
def FunctionParts.tokens (f : FunctionParts) : List Token := f.constructs.flatMap Construct.tokens

theorem tokens_functionParts (f : FunctionParts) : f.tokens =
    f.name :: (f.parameters.flatMap (fun p => [p.1, p.2]) ++
      f.body?.toList.flatMap fun b => b.1 :: b.2.flatMap Statement.tokens) := by
  simp only [FunctionParts.tokens, FunctionParts.constructs, List.flatMap_cons, List.flatMap_append,
    List.flatMap_map, List.flatMap_assoc, Construct.tokens, List.singleton_append]

theorem tokens_sublist {α : Type} (f : α → List Token) {xs : List α} {x : α} (h : x ∈ xs) :
    (f x).Sublist (xs.flatMap f) := List.sublist_flatten_of_mem (List.mem_map_of_mem h)

theorem keeps_body (brace : Token) (ss : List Statement) :
    ∀ part ∈ (node .compoundStatement brace "body" (ss.map Statement.outline)).parts,
      part.Keeps (brace :: ss.flatMap Statement.tokens) := by
  have hpayloads : ((ss.map Statement.outline).map Outline.payload).Sublist
      (ss.flatMap Statement.tokens) := by
    rw [List.map_map]
    exact map_sublist_flatMap ss payload_statement
  refine forall_parts (hpayloads.cons brace) ?_
  rw [List.forall_mem_map]
  exact fun s hs part hpart =>
    keeps_mono (keeps_statement s part hpart) ((tokens_sublist _ hs).cons brace)

theorem keeps_function (f : FunctionParts) : ∀ part ∈ f.outline.parts, part.Keeps f.tokens := by
  have hparameters : (f.parameters.map Prod.snd).Sublist
      (f.parameters.flatMap fun p => [p.1, p.2]) := map_sublist_flatMap _ (by simp)
  have hbody : (f.body?.toList.map Prod.fst).Sublist
      (f.body?.toList.flatMap fun b => b.1 :: b.2.flatMap Statement.tokens) :=
    map_sublist_flatMap _ (by simp)
  rw [tokens_functionParts]
  refine forall_parts ?_ (List.forall_mem_append.mpr ⟨?_, ?_⟩)
  · have hpayloads := (hparameters.append hbody).cons f.name
    simpa [Outline.Keeps, Outline.children, Outline.payload, parameterOutline, Function.comp_def]
      using hpayloads
  · rw [List.forall_mem_map]
    intro p hp part hpart
    refine keeps_mono (keeps_parameter p.1 p.2 part hpart) (.cons f.name ?_)
    exact (tokens_sublist (fun p => [p.1, p.2]) hp).trans (List.sublist_append_left _ _)
  · rw [List.forall_mem_map]
    intro b hb part hpart
    refine keeps_mono (keeps_body b.1 b.2 part hpart) (.cons f.name ?_)
    exact (tokens_sublist (fun b => b.1 :: b.2.flatMap Statement.tokens) hb).trans
      (List.sublist_append_right _ _)

/-- In a program all children come from tokens of their functions, in the order of the text. -/
theorem keeps_program (file : String) (fs : List FunctionParts) :
    ∀ part ∈ (programOutline file fs).parts, part.Keeps (fs.flatMap FunctionParts.tokens) := by
  have hnames : ((fs.map FunctionParts.outline).map Outline.payload).Sublist
      (fs.flatMap FunctionParts.tokens) := by
    rw [List.map_map]
    exact map_sublist_flatMap fs fun f => by simp [tokens_functionParts, FunctionParts.outline,
      Outline.payload]
  refine forall_parts hnames ?_
  rw [List.forall_mem_map]
  exact fun f hf part hpart => keeps_mono (keeps_function f part hpart) (tokens_sublist _ hf)

theorem mem_of_keeps {ts : List Token} {whole part : SyntaxOutline} (h : whole.Keeps ts)
    (hpart : part ∈ whole.children) : part.payload ∈ ts :=
  List.Sublist.mem (List.mem_map_of_mem hpart) h

/-- The functions that are recognized keep significant tokens of the text, in their order. -/
theorem functions_sublist {file text : String} {fs : List FunctionParts}
    (h : (recognize (Lexer.start file text).readings).constructs =
      fs.flatMap FunctionParts.constructs) :
    (fs.flatMap FunctionParts.tokens).Sublist (significant (tokenize file text)) := by
  have hsublist := recognize_sublist (Lexer.start file text).readings
  rwa [h, List.flatMap_assoc] at hsublist

/-- The lines of a dump are those of the nodes as they come, where all nodes are visited so. -/
theorem dumpLines_eq {tree : SyntaxTree} {visits : List (Handle × Nat)} {ns : List SyntaxNode}
    {h : Nat} (hns : tree.nodes.toList.drop h = ns)
    (hvisits : visits.map Prod.fst = List.range' h ns.length) :
    (visits.filterMap fun (h, depth) => (tree.get? h).map (dumpLine depth)) =
      List.zipWith dumpLine (visits.map Prod.snd) ns := by
  induction ns generalizing visits h with
  | nil =>
    obtain rfl : visits = [] := by simpa using hvisits
    rfl
  | cons n ns ih =>
    obtain ⟨⟨first, depth⟩, visits, rfl, rfl, hrest⟩ := List.map_eq_cons_iff.mp hvisits
    have hget : tree.get? first = some n := by
      rw [Forest.get?, ← Array.getElem?_toList, ← List.head?_drop, hns]
      rfl
    have htail : tree.nodes.toList.drop (first + 1) = ns := by
      rw [← List.tail_drop, hns]
      rfl
    simp only [List.filterMap_cons, hget, Option.map_some, ih htail hrest]
    rfl

/-- Where the nodes are visited as they come, a dump shows them so. -/
theorem dump_eq {tree : SyntaxTree} {root : Handle}
    (h : (tree.descendants root).map Prod.fst = List.range tree.size) :
    dump tree root = unlines (List.zipWith dumpLine ((tree.descendants root).map Prod.snd)
      tree.nodes.toList) := by
  rw [dump, dumpLines_eq List.drop_zero (h.trans List.range_eq_range')]

/-- The nodes of a tree in the order of its text: it is walked through from the first node to the
last, siblings stand one behind the other in the text, and every node but the root is made from a
token of it. The identifiers count on from the first, and a dump prints them in this order. -/
structure SourceOrdered (ts : List Token) (firstId : Nat) (c : Compilation) : Prop where
  visits : (c.tree.descendants c.root).map Prod.fst = List.range c.tree.size
  walked : ∀ more, c.tree.walk (c.tree.size + more) [(c.root, 0)] = c.tree.descendants c.root
  ids : c.tree.nodes.toList.map Node.id = List.range' firstId c.tree.size
  dumped : ∃ depths : List Nat, depths.length = c.tree.size ∧
    c.dump = unlines (List.zipWith dumpLine depths c.tree.nodes.toList)
  siblings : ∀ h node, c.tree.get? h = some node → ∃ below : List SyntaxNode,
    node.children.toList.map c.tree.get? = below.map some ∧
    below.Pairwise fun m n => m.payload.place.Before n.payload.place
  payload : ∀ h node, c.tree.get? h = some node → h ≠ c.root → node.payload ∈ ts

theorem compile_sourceOrdered (firstId : Nat) (file text : String) :
    SourceOrdered (significant (tokenize file text)) firstId
      (compileInto (.empty firstId) file text) := by
  obtain ⟨fs, _, hconstructs, htree, hroot⟩ := compileInto_eq_forest firstId file text
  have hkeeps := keeps_program file fs
  have hsublist := functions_sublist hconstructs
  have hvisits : (((programOutline file fs).forest firstId).descendants 0).map Prod.fst =
      List.range ((programOutline file fs).forest firstId).size := by
    rw [Forest.descendants_forest, Forest.size_forest, map_fst_visits, List.range_eq_range']
  rw [← htree, ← hroot] at hvisits
  refine ⟨hvisits, ?_, ?_, ⟨_, ?_, dump_eq hvisits⟩, ?_, ?_⟩
  · intro more
    rw [htree, hroot, Forest.walk_forest, Forest.descendants_forest]
  · rw [htree, Forest.ids_forest, Forest.size_forest]
  · rw [List.length_map, ← List.length_map Prod.fst, hvisits, List.length_range]
  · intro h node hnode
    rw [htree] at hnode
    obtain ⟨_, part, hpart, hdraws⟩ := Forest.exists_draws hnode
    obtain ⟨below, hbelow, _, hpayload⟩ := hdraws.children
    -- Children are tokens of the text in its order, and these stand one behind the other.
    have htokens := (hkeeps part hpart).trans hsublist
    have hpairwise := ((tokens_inOrder file text).sublist List.filter_sublist).sublist htokens
    rw [← hpayload, List.pairwise_map] at hpairwise
    rw [htree]
    exact ⟨below, hbelow, hpairwise⟩
  · intro h node hnode hne
    rw [htree] at hnode
    rw [hroot] at hne
    obtain ⟨h, rfl⟩ := Nat.exists_eq_succ_of_ne_zero hne
    obtain ⟨part, hpart, hdraws⟩ := Forest.exists_draws_below hnode
    obtain ⟨whole, hwhole, hchild⟩ := exists_whole hpart
    rw [hdraws.payload]
    exact hsublist.mem (mem_of_keeps (hkeeps whole hwhole) hchild)

end SlsLang
