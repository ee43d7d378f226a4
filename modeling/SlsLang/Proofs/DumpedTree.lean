import SlsLang.Proofs.DelimitedText
import SlsLang.Proofs.TreeShape
import SlsLang.SyntaxBuilder
import SlsLang.TreeText

namespace SlsLang

/-- What a dump tells of a node, apart from where it stands. The name of a root is not told. -/
@[ext]
structure NodeLabel where
  kind : SyntaxKind
  name : String
  id : Nat
  line : Nat
  column : Nat
deriving DecidableEq, Repr

def Node.label (n : SyntaxNode) : NodeLabel :=
  ⟨n.kind, if n.kind = .root then "" else n.name, n.id, n.payload.place.line,
    n.payload.place.column⟩

namespace SyntaxKind

theorem name_injective : Function.Injective name := by
  have hfind : ∀ kind : SyntaxKind, [root, functionDecl, paramVarDecl, compoundStatement,
      declStatement, varDecl, typeRef, assignment, callExpr, declRefExpr, stringLiteral,
      floatLiteral, doubleLiteral, int32Literal, int64Literal, characterLiteral,
      booleanLiteral].find? (·.name == kind.name) = some kind := by
    intro kind
    cases kind <;> decide +kernel
  intro kind kind' h
  have hkind := hfind kind
  rw [h, hfind kind'] at hkind
  exact (Option.some.inj hkind).symm

/-- The name of a kind is one word of a line. -/
theorem word_name (kind : SyntaxKind) : ' ' ∉ kind.name.toList ∧ '\n' ∉ kind.name.toList := by
  cases kind <;> decide +kernel

theorem head?_name (kind : SyntaxKind) (rest : List Char) :
    (kind.name.toList ++ rest).head? ≠ some ' ' := by
  obtain ⟨c, cs, hname⟩ : ∃ c cs, kind.name.toList = c :: cs := by
    cases kind <;> exact ⟨_, _, rfl⟩
  have hword := kind.word_name.1
  rw [hname] at hword ⊢
  rw [List.cons_append, List.head?_cons, ne_eq, Option.some.injEq]
  exact fun hc => hword (hc ▸ List.mem_cons_self)

end SyntaxKind

section Lines

/-- A name in quotes, where there is one. -/
def quotedName (name : String) : List Char :=
  if name = "" then [] else ' ' :: '\'' :: (name.toList ++ ['\''])

/-- What follows the name of a node. -/
def idAndPlace (label : NodeLabel) : List Char :=
  Nat.toDigits 10 label.id ++ ' ' :: '<' :: (Nat.toDigits 10 label.line ++
    ':' :: (Nat.toDigits 10 label.column ++ ['>']))

theorem toList_dumpLine (depth : Nat) (node : SyntaxNode) : (dumpLine depth node).toList =
    List.replicate (2 * depth) ' ' ++ (node.kind.name.toList ++
      (quotedName node.label.name ++ ' ' :: '#' :: idAndPlace node.label)) := by
  have hquoted : (if node.name = "" ∨ node.kind = .root then "" else " '" ++ node.name ++ "'").toList =
      quotedName node.label.name := by
    by_cases hroot : node.kind = .root
    · simp [quotedName, Node.label, hroot]
    · by_cases hname : node.name = "" <;> simp [quotedName, Node.label, hroot, hname]
  simp only [dumpLine, String.toList_append, hquoted]
  simp [idText, idAndPlace, Node.label]

theorem quotedName_injective : Function.Injective quotedName := by
  intro name name' h
  unfold quotedName at h
  split at h
  next hempty =>
    split at h
    next hempty' => rw [hempty, hempty']
    next => cases h
  next =>
    split at h
    next => cases h
    next =>
      have hquote := (List.cons.inj (List.cons.inj h).2).2
      exact String.toList_injective (List.append_cancel_right hquote)

theorem notMem_idAndPlace {c : Char} (hdigit : c.isDigit = false)
    (hmark : c ∉ [' ', '<', ':', '>']) (label : NodeLabel) : c ∉ idAndPlace label := by
  simp only [List.mem_cons, List.not_mem_nil, or_false, not_or] at hmark
  simp [idAndPlace, notMem_toDigits hdigit, hmark]

/-- Identifier and place are read from the left, and stop where no digit follows. -/
theorem eq_of_idAndPlace_eq {a b : NodeLabel} (h : idAndPlace a = idAndPlace b) :
    a.id = b.id ∧ a.line = b.line ∧ a.column = b.column := by
  obtain ⟨hid, hplace⟩ := eq_of_append_cons (notMem_toDigits (by decide) _)
    (notMem_toDigits (by decide) _) h
  obtain ⟨hline, hcolumn⟩ := eq_of_append_cons (notMem_toDigits (by decide) _)
    (notMem_toDigits (by decide) _) (List.cons.inj hplace).2
  exact ⟨toDigits_injective hid, toDigits_injective hline,
    toDigits_injective (List.append_cancel_right hcolumn)⟩

/-- A line is read from both ends: depth and kind from the left, up to the first space, identifier
and place from the right, up to the last number sign. What is left between them is the name, and it
may look like anything. -/
theorem dumpLine_eq_iff {depth depth' : Nat} {n m : SyntaxNode} :
    dumpLine depth n = dumpLine depth' m ↔ depth = depth' ∧ n.label = m.label := by
  rw [← String.toList_inj, toList_dumpLine, toList_dumpLine]
  constructor
  · intro h
    obtain ⟨hspaces, hline⟩ := eq_of_replicate_append (n.kind.head?_name _) (m.kind.head?_name _) h
    have hspace : ∀ (node : SyntaxNode), ∃ rest : List Char,
        quotedName node.label.name ++ ' ' :: '#' :: idAndPlace node.label = ' ' :: rest := by
      intro node
      unfold quotedName
      split
      · exact ⟨_, rfl⟩
      · exact ⟨_, rfl⟩
    obtain ⟨rest, hrest⟩ := hspace n
    obtain ⟨rest', hrest'⟩ := hspace m
    have hkind : n.kind.name.toList = m.kind.name.toList := by
      rw [hrest, hrest'] at hline
      exact (eq_of_append_cons n.kind.word_name.1 m.kind.word_name.1 hline).1
    rw [hkind] at hline
    have hbehind := List.append_cancel_left hline
    rw [List.append_cons, List.append_cons (quotedName m.label.name)] at hbehind
    obtain ⟨hname, hplace⟩ := eq_of_append_cons_last (notMem_idAndPlace (by decide) (by decide) _)
      (notMem_idAndPlace (by decide) (by decide) _) hbehind
    obtain ⟨hid, hline, hcolumn⟩ := eq_of_idAndPlace_eq hplace
    refine ⟨by omega, NodeLabel.ext ?_ ?_ hid hline hcolumn⟩
    · exact SyntaxKind.name_injective (String.toList_injective hkind)
    · exact quotedName_injective (List.append_cancel_right hname)
  · rintro ⟨rfl, hlabel⟩
    have hkind : n.kind = m.kind := congrArg NodeLabel.kind hlabel
    rw [hkind, hlabel]

theorem newline_notMem_dumpLine (depth : Nat) {n : SyntaxNode} (h : '\n' ∉ n.name.toList) :
    '\n' ∉ (dumpLine depth n).toList := by
  have hquoted : '\n' ∉ quotedName n.label.name := by
    unfold quotedName Node.label
    split_ifs <;> simp_all
  rw [toList_dumpLine]
  simp [n.kind.word_name.2, hquoted, notMem_idAndPlace (c := '\n') (by decide) (by decide)]

end Lines

namespace Forest

variable {K P : Type}

/-- The nodes of a subtree, every node before its children. -/
def nodesBelow (f : Forest K P) (h : Handle) : List (Node K P) :=
  (f.descendants h).filterMap fun visit => f.get? visit.1

/-- The same nodes with their depths. -/
def visited (f : Forest K P) (h : Handle) : List (Nat × Node K P) :=
  (f.descendants h).filterMap fun visit => (f.get? visit.1).map (visit.2, ·)

theorem map_snd_visited (f : Forest K P) (h : Handle) :
    (f.visited h).map Prod.snd = f.nodesBelow h := by
  rw [visited, List.map_filterMap]
  simp only [Option.map_map, nodesBelow]
  exact congrArg (fun node => List.filterMap node _) (funext fun _ => Option.map_id')

section Visited

variable {f : Forest K P} {firstId : Nat} {h : Handle}

theorem WellFormed.inSubtree_of_mem_descendants (hf : f.WellFormed firstId) (hh : h < f.size)
    {visit : Handle × Nat} (hvisit : visit ∈ f.descendants h) :
    f.InSubtree h visit.1 ∧ visit.1 < f.size := by
  have hrise := (hf.mem_visits_node_iff (hf.drains_descendants hh).1).mp hvisit
  exact ⟨hf.inSubtree_iff.mpr ⟨_, hrise⟩, lt_size_of_rise hh hrise⟩

theorem WellFormed.map_fst_visited (hf : f.WellFormed firstId) (hh : h < f.size) :
    (f.visited h).map Prod.fst = f.depths h := by
  rw [visited, List.map_filterMap, depths, ← List.filterMap_eq_map]
  refine List.filterMap_congr fun visit hvisit => ?_
  obtain ⟨n, hn⟩ := exists_get? (hf.inSubtree_of_mem_descendants hh hvisit).2
  rw [hn]
  rfl

theorem WellFormed.inSubtree_of_mem_visited (hf : f.WellFormed firstId) (hh : h < f.size)
    {e : Nat × Node K P} (he : e ∈ f.visited h) : ∃ x, f.InSubtree h x ∧ f.get? x = some e.2 := by
  obtain ⟨visit, hvisit, hnode⟩ := List.mem_filterMap.mp he
  obtain ⟨n, hn, rfl⟩ := Option.map_eq_some_iff.mp hnode
  exact ⟨visit.1, (hf.inSubtree_of_mem_descendants hh hvisit).1, hn⟩

end Visited

end Forest

section Trees

variable {t u : SyntaxTree} {h k : Handle} {firstId firstId' : Nat}

/-- No name of a subtree breaks off a line. -/
def NamesOneLine (t : SyntaxTree) (h : Handle) : Prop :=
  ∀ x, t.InSubtree h x → ∀ n, t.get? x = some n → '\n' ∉ n.name.toList

theorem dump_eq_visited (t : SyntaxTree) (h : Handle) :
    dump t h = unlines ((t.visited h).map fun e => dumpLine e.1 e.2) := by
  rw [Forest.visited, List.map_filterMap]
  simp only [Option.map_map]
  rfl

theorem newline_notMem_dump (ht : t.WellFormed firstId) (hh : h < t.size) (hnames : NamesOneLine t h) :
    ∀ l ∈ (t.visited h).map fun e => dumpLine e.1 e.2, '\n' ∉ l.toList := by
  rw [List.forall_mem_map]
  intro e he
  obtain ⟨x, hx, hnode⟩ := ht.inSubtree_of_mem_visited hh he
  exact newline_notMem_dumpLine e.1 (hnames x hx e.2 hnode)

theorem dump_eq_iff (ht : t.WellFormed firstId) (hu : u.WellFormed firstId') (hh : h < t.size)
    (hk : k < u.size) (hnames : NamesOneLine t h) (hnames' : NamesOneLine u k) :
    dump t h = dump u k ↔ t.SameShape u h k ∧
      (t.nodesBelow h).map Node.label = (u.nodesBelow k).map Node.label := by
  have hlines : dump t h = dump u k ↔
      (t.visited h).map (fun e => dumpLine e.1 e.2) = (u.visited k).map fun e => dumpLine e.1 e.2 := by
    rw [dump_eq_visited, dump_eq_visited]
    exact ⟨eq_of_unlines_eq (newline_notMem_dump ht hh hnames) (newline_notMem_dump hu hk hnames'),
      congrArg unlines⟩
  rw [hlines, ht.sameShape_iff hu h hh k hk, ← ht.map_fst_visited hh, ← hu.map_fst_visited hk,
    ← t.map_snd_visited, ← u.map_snd_visited, List.map_map, List.map_map, ← forall₂_map_eq_iff,
    ← forall₂_map_eq_iff, ← forall₂_map_eq_iff, ← forall₂_and_iff]
  simp only [dumpLine_eq_iff, Function.comp_apply]

end Trees

/-- A dump determines the tree below the node that it starts from. However two syntax trees came
about, their dumps are the same text exactly if what stands below the two nodes is of one shape and, in
pre-order, of the same kinds, names, identifiers and places. Only the name of a root does not count. -/
theorem editAll_dump_eq_iff (firstId firstId' : Nat) (es es' : List (Edit SyntaxKind Token)) :
    let t := (Forest.empty firstId).editAll es
    let u := (Forest.empty firstId').editAll es'
    ∀ h < t.size, ∀ k < u.size, NamesOneLine t h → NamesOneLine u k →
      (dump t h = dump u k ↔ t.SameShape u h k ∧
        (t.nodesBelow h).map Node.label = (u.nodesBelow k).map Node.label) := by
  intro t u h hh k hk
  have ht : t.WellFormed firstId := ((Forest.wellFormed_empty firstId).editAll es).1
  have hu : u.WellFormed firstId' := ((Forest.wellFormed_empty firstId').editAll es').1
  exact dump_eq_iff ht hu hh hk

/-- A name that holds the rest of a line, quote, identifier and place, is not taken for that rest. -/
theorem editAll_dump_eq_iff_quoteInName :
    let tree (name : String) : SyntaxTree := (Forest.empty 0).editAll
      [.create .root (rootToken "main.sls") "root", .append 0 .varDecl (rootToken "main.sls") name]
    let t := tree "x"
    let u := tree "x' #1 <1:1>"
    0 < t.size ∧ 0 < u.size ∧ NamesOneLine t 0 ∧ NamesOneLine u 0 ∧ dump t 0 ≠ dump u 0 := by
  intro tree t u
  have hnames : NamesOneLine t 0 ∧ NamesOneLine u 0 := by
    have hall : (∀ n ∈ t.nodes, '\n' ∉ n.name.toList) ∧ ∀ n ∈ u.nodes, '\n' ∉ n.name.toList := by
      decide +kernel
    exact ⟨fun x _ n hn => hall.1 n (Array.mem_of_getElem? hn),
      fun x _ n hn => hall.2 n (Array.mem_of_getElem? hn)⟩
  refine ⟨by decide +kernel, by decide +kernel, hnames.1, hnames.2, fun h => ?_⟩
  have hsame := (editAll_dump_eq_iff 0 0 _ _ 0 (by decide +kernel) 0 (by decide +kernel) hnames.1
    hnames.2).mp h
  exact absurd hsame.2 (by decide +kernel)

end SlsLang
