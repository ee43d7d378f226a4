import Mathlib.Algebra.GroupWithZero.Nat
import SlsLang.Proofs.DelimitedText
import SlsLang.Proofs.LineBreaks
import SlsLang.Proofs.NoticeLines
import SlsLang.Proofs.ReportWords

namespace SlsLang

open Outline

/-- Constants that are spelled between quotes, where an escape stands for a character. -/
def TokenKind.isQuoted : TokenKind → Bool
  | .string | .character => true
  | _ => false

def SyntaxKind.isQuoted : SyntaxKind → Bool
  | .stringLiteral | .characterLiteral => true
  | _ => false

/-- The lines that a report owes to a node. -/
def noticesDue (tree : SyntaxTree) (node : SyntaxNode) : Nat :=
  match node.kind with
  | .functionDecl | .paramVarDecl | .assignment => 1
  | .varDecl => if (childNodes tree node).any (·.kind.isValue) then 2 else 1
  | .callExpr => 1 + node.children.size
  | _ => 0

theorem TokenKind.newline_notMem_name (kind : TokenKind) : '\n' ∉ kind.name.toList := by
  cases kind <;> decide

/-- Only what is spelled in quotes or is a comment can stand for a text with a line break. -/
theorem newline_notMem_text {file : String} {before after : List Char} {r : Reading}
    (h : r.Stands file before after) (hk : r.lexeme.kind ≠ .comment)
    (hq : r.lexeme.kind.isQuoted = false) : '\n' ∉ r.lexeme.text.toList := by
  have hslice := h.newline_notMem hk
  have hwhole : r.lexeme.text = String.ofList r.lexeme.slice → '\n' ∉ r.lexeme.text.toList := by
    intro htext
    rwa [htext, String.toList_ofList]
  have hpromise := h.promise
  unfold Lexeme.Promise at hpromise
  cases hc : r.lexeme.kind <;> rw [hc] at hpromise
  case comment => exact absurd hc hk
  case operator | punctuation | invalid => exact hwhole hpromise.text
  case keyword | identifier => exact hwhole hpromise.1.text
  case double | float | int32 | int64 =>
    rw [hpromise.text, String.toList_ofList]
    exact fun hn => hslice (List.mem_of_mem_filter hn)
  case string | character => simp [hc, TokenKind.isQuoted] at hq
  case endOfFile => simp [hpromise.2.1]
  case boolean => exact hpromise.elim

theorem newline_notMem_of_mem_tokenize {file text : String} {t : Token} (h : t ∈ tokenize file text)
    (hk : t.isComment = false) (hq : t.kind.isQuoted = false) : '\n' ∉ t.text.toList := by
  obtain ⟨r, hr, rfl⟩ := List.mem_map.mp h
  obtain ⟨xs, ys, hrs⟩ := List.append_of_mem hr
  have hcomment : r.lexeme.kind ≠ .comment := by simpa [Token.isComment, Reading.token] using hk
  exact newline_notMem_text (stands_of_reads (reads_start file text) hrs).1 hcomment hq

def Construct.values : Construct → List Token
  | .statement s => s.values
  | _ => []

/-- The line breaks within the lines of a statement are those of its values. -/
theorem Statement.count_newline_notices {s : Statement}
    (h : ∀ word ∈ s.words, word.toList.count '\n' = 0) :
    (s.notices.flatMap String.toList).count '\n' =
      (s.values.flatMap (·.text.toList)).count '\n' := by
  have hkind : ∀ kind : TokenKind, kind.name.toList.count '\n' = 0 := fun kind =>
    List.count_eq_zero.mpr kind.newline_notMem_name
  cases s with
  | declaration name type init? =>
    obtain ⟨hname, htype⟩ : name.text.toList.count '\n' = 0 ∧ type.text.toList.count '\n' = 0 := by
      simpa [words] using h
    cases init? with
    | none => simp [notices, values, hname, htype]
    | some init => simp [notices, values, hname, htype, hkind]
  | assignment target value =>
    have htarget : target.text.toList.count '\n' = 0 := by simpa [words] using h
    simp [notices, values, htarget]
  | call head callee arguments =>
    have hcallee : callee.toList.count '\n' = 0 := by simpa [words] using h
    simp [notices, values, hcallee, List.flatMap_map, List.count_flatMap, Function.comp_def]

theorem Construct.count_newline_notices {c : Construct} (h : ∀ word ∈ c.words, '\n' ∉ word.toList) :
    (c.notices.flatMap String.toList).count '\n' =
      (c.values.flatMap (·.text.toList)).count '\n' := by
  have hword : ∀ word ∈ c.words, word.toList.count '\n' = 0 := fun word hw =>
    List.count_eq_zero.mpr (h word hw)
  cases c with
  | function name =>
    have hname : name.text.toList.count '\n' = 0 := by simpa [words] using hword
    simp [notices, values, hname]
  | parameter type name =>
    obtain ⟨htype, hname⟩ : type.text.toList.count '\n' = 0 ∧ name.text.toList.count '\n' = 0 := by
      simpa [words] using hword
    simp [notices, values, htype, hname]
  | body brace => rfl
  | statement s => exact s.count_newline_notices hword

section Nodes

theorem isQuoted_of_forValue? {t : TokenKind} {kind : SyntaxKind}
    (h : SyntaxKind.forValue? t = some kind) : kind.isQuoted = t.isQuoted := by
  cases t <;> simp [SyntaxKind.forValue?] at h <;> subst h <;> rfl

/-- The token of the first node, if it is spelled in quotes. -/
def Outline.quoted (o : SyntaxOutline) : List Token := if o.kind.isQuoted then [o.payload] else []

def Construct.quoted (c : Construct) : List Token := c.values.filter (·.kind.isQuoted)

theorem quoted_values {vs : List Token} (h : ∀ v ∈ vs, v.isValue = true) :
    ((vs.flatMap valueOutlines).flatMap fun o => o.parts.flatMap Outline.quoted) =
      vs.filter (·.kind.isQuoted) := by
  induction vs with
  | nil => rfl
  | cons v vs ih =>
    obtain ⟨hv, hvs⟩ := List.forall_mem_cons.mp h
    obtain ⟨kind, hkind, _, heq⟩ := valueOutlines_of_isValue hv
    have hquoted : (node kind v v.text [] : SyntaxOutline).parts.flatMap Outline.quoted =
        [v].filter (·.kind.isQuoted) := by
      rw [flatMap_parts_node, List.filter_singleton, Outline.quoted, Outline.kind,
        isQuoted_of_forValue? hkind]
      cases v.kind.isQuoted <;> rfl
    rw [List.flatMap_cons, List.flatMap_append, heq, List.flatMap_singleton, hquoted, ih hvs,
      ← List.filter_append, List.singleton_append]

theorem quoted_takesAlike : TakesAlike Outline.quoted Construct.quoted where
  root _ _ := rfl
  function _ _ := rfl
  parameter _ _ := rfl
  body _ _ := rfl
  statement s hs := by
    have hvalues := quoted_values hs
    cases s with
    | declaration name type init? =>
      rw [Statement.outline, flatMap_parts_node, List.flatMap_singleton, flatMap_parts_node,
        List.flatMap_cons]
      exact hvalues
    | assignment target value =>
      rw [Statement.outline, flatMap_parts_node]
      rw [Statement.values, List.flatMap_singleton] at hvalues
      exact hvalues
    | call head callee arguments =>
      rw [Statement.outline, flatMap_parts_node]
      exact hvalues

end Nodes

theorem count_newline_filter {ts : List Token}
    (h : ∀ t ∈ ts, t.kind.isQuoted = false → '\n' ∉ t.text.toList) :
    (ts.flatMap (·.text.toList)).count '\n' =
      ((ts.filter (·.kind.isQuoted)).flatMap (·.text.toList)).count '\n' := by
  induction ts with
  | nil => rfl
  | cons t ts ih =>
    obtain ⟨ht, hts⟩ := List.forall_mem_cons.mp h
    rw [List.flatMap_cons, List.count_append, ih hts, List.filter_cons]
    cases hq : t.kind.isQuoted with
    | false => rw [List.count_eq_zero.mpr (ht hq), Nat.zero_add, if_neg Bool.false_ne_true]
    | true => rw [if_pos rfl, List.flatMap_cons, List.count_append]

section Compiled

variable (firstId : Nat) (file text : String)

theorem mem_tokens_of_mem_values {c : Construct} {v : Token} (h : v ∈ c.values) : v ∈ c.tokens := by
  cases c with
  | statement s =>
    cases s with
    | declaration name type init? =>
      exact List.mem_cons_of_mem _ (List.mem_cons_of_mem _ h)
    | assignment target value => exact List.mem_cons_of_mem _ h
    | call head callee arguments => exact List.mem_cons_of_mem _ h
  | _ => simp [Construct.values] at h

/-- What recognition makes of a text has its line breaks in constants in quotes. -/
theorem count_newline_recognized {c : Construct}
    (h : c ∈ (recognize (Lexer.start file text).readings).constructs) :
    (c.notices.flatMap String.toList).count '\n' =
      (c.quoted.flatMap (·.text.toList)).count '\n' := by
  have hwords : ∀ word ∈ c.words, '\n' ∉ word.toList := by
    refine Awaiting.newline_notMem_constructs (a := .function) trivial (fun t ht hname => ?_) c h
    refine newline_notMem_of_mem_tokenize ht ?_ ?_ <;>
      simp_all [Token.isIdentifier, Token.isComment, TokenKind.isQuoted]
  rw [Construct.count_newline_notices hwords, Construct.quoted]
  refine count_newline_filter fun v hv hq => ?_
  have hsignificant := (recognize_sublist (Lexer.start file text).readings).subset
    (List.mem_flatMap.mpr ⟨c, h, mem_tokens_of_mem_values hv⟩)
  obtain ⟨hmem, hcomment⟩ := List.mem_filter.mp hsignificant
  exact newline_notMem_of_mem_tokenize hmem (by simpa using hcomment) hq

theorem told_eq :
    let c := compileInto (.empty firstId) file text
    (c.tree.nodes.toList.flatMap fun node => noticesOf node (childNodes c.tree node)) =
      (recognize (Lexer.start file text).readings).constructs.flatMap Construct.notices := by
  intro c
  obtain ⟨fs, hfs, hconstructs, htree, _⟩ := compileInto_eq_forest firstId file text
  rw [hconstructs, ← notices_takesAlike.flatMap_program file hfs, htree]
  exact Forest.flatMap_nodes_forest firstId _ noticesOf_of_shows

theorem quoted_eq :
    ((compileInto (.empty firstId) file text).tree.nodes.toList.filter (·.kind.isQuoted)).map
        Node.payload =
      (recognize (Lexer.start file text).readings).constructs.flatMap Construct.quoted := by
  obtain ⟨fs, hfs, hconstructs, htree, _⟩ := compileInto_eq_forest firstId file text
  have hfilter : ∀ nodes : List SyntaxNode, (nodes.filter (·.kind.isQuoted)).map Node.payload =
      nodes.flatMap fun node => if node.kind.isQuoted then [node.payload] else [] := by
    intro nodes
    induction nodes with
    | nil => rfl
    | cons node nodes ih =>
      rw [List.flatMap_cons, ← ih, List.filter_cons]
      cases node.kind.isQuoted <;> rfl
  rw [hconstructs, ← quoted_takesAlike.flatMap_program file hfs, htree, hfilter]
  refine Forest.flatMap_nodes_forest firstId _ fun {parent? h id part} hshows => ?_
  cases part with
  | node kind payload name below =>
    rw [hshows.1]
    rfl

/-- A node has as many lines as a report owes to it. -/
theorem length_noticesOf {node : SyntaxNode}
    (h : node ∈ (compileInto (.empty firstId) file text).tree.nodes.toList) :
    (noticesOf node (childNodes (compileInto (.empty firstId) file text).tree node)).length =
      noticesDue (compileInto (.empty firstId) file text).tree node := by
  obtain ⟨fs, _, _, htree, _⟩ := compileInto_eq_forest firstId file text
  rw [htree] at h ⊢
  obtain ⟨i, hi⟩ := List.mem_iff_getElem?.mp h
  rw [Array.getElem?_toList] at hi
  obtain ⟨_, _, _, hdraws⟩ := Forest.exists_draws hi
  obtain ⟨ns, hns, _, _⟩ := hdraws.children
  have hchildren : (childNodes ((programOutline file fs).forest firstId) node).length =
      node.children.size := by
    have hbelow := congrArg (List.filterMap id) hns
    have hlength := congrArg List.length hns
    simp only [List.filterMap_map, Function.id_comp, List.filterMap_some, List.length_map,
      Array.length_toList] at hbelow hlength
    rw [childNodes, hbelow, hlength]
  unfold noticesOf noticesDue
  cases node.kind with
  | varDecl =>
    rw [← List.isSome_find?]
    cases (childNodes ((programOutline file fs).forest firstId) node).find? (·.kind.isValue) <;> rfl
  | callExpr => simp [hchildren, Nat.add_comm]
  | _ => rfl

end Compiled

/-- The line breaks of a report are those that end its lines and those in constants between quotes:
no name adds any. So the report has a line for each that is due, in the order of the nodes, exactly if
no such constant stands for a text with a line break. -/
theorem compile_notices_lines (firstId : Nat) (file text : String) :
    let c := compileInto (.empty firstId) file text
    let nodes := c.tree.nodes.toList
    let quoted := nodes.filter (·.kind.isQuoted)
    let told := nodes.flatMap fun node => noticesOf node (childNodes c.tree node)
    c.notices = unlines told ∧
      told.length = (nodes.map (noticesDue c.tree)).sum ∧
      c.notices.toList.count '\n' =
        (nodes.map (noticesDue c.tree)).sum +
          (quoted.map fun node => node.payload.text.toList.count '\n').sum ∧
      (c.notices.toList.splitOn '\n' = told.map String.toList ++ [[]] ↔
        ∀ node ∈ quoted, '\n' ∉ node.payload.text.toList) := by
  intro c nodes quoted told
  have htold : told = (recognize (Lexer.start file text).readings).constructs.flatMap
      Construct.notices := told_eq firstId file text
  have hnotices : c.notices = unlines told :=
    (notices_compileInto firstId file text).trans (congrArg unlines htold.symm)
  have hlength : told.length = (nodes.map (noticesDue c.tree)).sum := by
    rw [List.length_flatMap]
    exact congrArg List.sum (List.map_congr_left fun node h => length_noticesOf firstId file text h)
  have hbreaks : (told.flatMap String.toList).count '\n' =
      (quoted.map fun node => node.payload.text.toList.count '\n').sum := by
    have hquoted : (quoted.map Node.payload).flatMap (·.text.toList) =
        quoted.flatMap fun node => node.payload.text.toList := List.flatMap_map ..
    have hcount := List.count_flatMap (x := '\n') (l := quoted)
      (f := fun node => node.payload.text.toList)
    rw [← hquoted, quoted_eq firstId, List.flatMap_assoc, List.count_flatMap] at hcount
    rw [htold, List.flatMap_assoc, List.count_flatMap]
    refine Eq.trans (congrArg List.sum (List.map_congr_left fun c hc => ?_)) hcount
    exact count_newline_recognized file text hc
  refine ⟨hnotices, hlength, ?_, ?_⟩
  · rw [hnotices, count_newline_unlines, hlength, hbreaks]
  · rw [hnotices, splitOn_unlines_iff, hbreaks, List.sum_eq_zero_iff_forall_eq_nat,
      List.forall_mem_map]
    simp only [List.count_eq_zero]

/-- The escape in the string is printed as the line break it stands for, and behind that the text
reads as a line of its own. -/
theorem compile_notices_forged :
    let c := compile "main.sls" "fun f() \x7b a = \"x\\nfunction: g\"; \x7d"
    c.notices = "function: f\nassignment: a = x\nfunction: g\n" ∧
      c.notices.toList.count '\n' ≠ (c.tree.nodes.toList.map (noticesDue c.tree)).sum := by
  decide +kernel

end SlsLang
