import SlsLang.Proofs.DeclaredNames
import SlsLang.Proofs.ParameterGrammar
import SlsLang.Proofs.PulledRecognition
import SlsLang.Proofs.SyntaxOutline

namespace SlsLang

open Outline

/-- The complete pairs among the tokens behind an opening parenthesis, as long as these go on with a
parameter list. -/
def completePairs : List Token → List (Token × Token)
  | type :: name :: _ :: more => (type, name) :: completePairs more
  | [type, name] => [(type, name)]
  | _ => []

def parameterOf (p : Token × Token) : Construct := .parameter p.1 p.2

def outlineOf (p : Token × Token) : SyntaxOutline := parameterOutline p.1 p.2

theorem completePairs_cons_cons (type name : Token) (ts : List Token) :
    completePairs (type :: name :: ts) = (type, name) :: completePairs ts.tail := by
  cases ts <;> rfl

theorem ClosedPairs.ne_nil {ts : List Token} {ps : List (Token × Token)} (h : ClosedPairs ts ps) :
    ts ≠ [] := by
  cases h <;> exact List.cons_ne_nil _ _

theorem ClosedPairs.eq_completePairs {ts : List Token} {ps : List (Token × Token)}
    (h : ClosedPairs ts ps) : ps = completePairs ts.dropLast := by
  induction h with
  | last => rfl
  | @more type name comma ts ps _ _ _ rest ih =>
    rw [ih, List.dropLast_cons_of_ne_nil (by simp), List.dropLast_cons_of_ne_nil (by simp),
      List.dropLast_cons_of_ne_nil rest.ne_nil, completePairs_cons_cons, List.tail_cons]

theorem ParameterList.eq_completePairs {ts : List Token} {ps : List (Token × Token)}
    (h : ParameterList ts ps) : ps = completePairs ts.dropLast.tail := by
  cases h with
  | empty => rfl
  | @pairs opening ts ps _ rest =>
    rw [List.dropLast_cons_of_ne_nil rest.ne_nil, List.tail_cons]
    exact rest.eq_completePairs

namespace Awaiting

theorem responses_append (a : Awaiting) (ts us : List Token) :
    a.responses (ts ++ us) = a.responses ts ++ (a.after ts).responses us := by
  induction ts generalizing a with
  | nil => rfl
  | cons t ts ih =>
    rw [List.cons_append, responses_cons, responses_cons, ih, after_cons, List.cons_append]

/-- The pairs that tokens complete where a list is under way and stays so. -/
def pairsAhead : Awaiting → List Token → List (Token × Token)
  | parameterList, ts | nextParameter, ts => completePairs ts.tail
  | parameterName type, ts => completePairs (type :: ts)
  | _, ts => completePairs ts

section Answers

variable {a : Awaiting} {t : Token} (ha : a.InList) (ht : t.isComment = false)

include ha ht

/-- Where a list goes on nothing is at fault. -/
theorem faults_of_next_inList (h : (a.respond t).next.InList) : (a.respond t).faults = [] := by
  generalize hr : a.respond t = r at h
  cases hr ▸ listAnswer_respond ha ht with
  | pass | pair | close => rfl
  | breakOff => exact h.elim

/-- Nothing comes of the token at which a list is over, and only if the list is broken off the token
is at fault. -/
theorem answer_over {accepted : Bool} (h : (a.respond t).next = .body accepted) :
    (a.respond t).construct? = none ∧ (accepted = true → (a.respond t).faults = []) ∧
      (accepted = false → ∃ fault, (a.respond t).faults = [t.blame fault]) := by
  generalize hr : a.respond t = r at h
  cases hr ▸ listAnswer_respond ha ht with
  | pass goesOn =>
    obtain rfl := h
    exact goesOn.elim
  | pair => cases h
  | close =>
    obtain rfl : true = accepted := Awaiting.body.inj h
    simp [Response.pass]
  | breakOff fault =>
    obtain rfl : false = accepted := Awaiting.body.inj h
    simp [Response.refuse]

theorem pairsAhead_cons (h : (a.respond t).next.InList) (ts : List Token) :
    (a.pairsAhead (t :: ts)).map parameterOf =
      (a.respond t).construct?.toList ++ ((a.respond t).next.pairsAhead ts).map parameterOf := by
  rw [respond_of_not_comment ht] at h ⊢
  cases a with
  | parameterList | firstParameter | nextParameter | parameterType =>
    simp only [respondTo, respondToType] at h ⊢
    split_ifs at h ⊢ <;> simp_all [Response.pass, Response.refuse, InList, pairsAhead]
  | parameterName type =>
    simp only [respondTo] at h ⊢
    split_ifs at h ⊢
    · simp [Response.accept, pairsAhead, completePairs_cons_cons, parameterOf]
    · exact h.elim
  | function | functionName | body | statement => exact ha.elim

end Answers

section Rows

variable {a : Awaiting} {ts : List Token} (hts : ∀ t ∈ ts, t.isComment = false)

include hts

/-- As long as a list is under way nothing is at fault, and all that comes of it are its pairs. -/
theorem StaysInList.faults_constructs (h : a.StaysInList ts) :
    a.faults ts = [] ∧ a.constructs ts = (a.pairsAhead ts).map parameterOf := by
  induction ts generalizing a with
  | nil => cases a <;> exact ⟨rfl, rfl⟩
  | cons t ts ih =>
    obtain ⟨ht, hrest⟩ := List.forall_mem_cons.mp hts
    obtain ⟨ha, hstays⟩ := staysInList_cons.mp h
    obtain ⟨hfaults, hconstructs⟩ := ih hrest hstays
    have hnext : (a.respond t).next.InList := hstays [] List.nil_prefix
    rw [faults_cons, constructs_cons, faults_of_next_inList ha ht hnext, hfaults, hconstructs,
      pairsAhead_cons ha ht hnext]
    exact ⟨rfl, rfl⟩

/-- Every list is over before the end of the text, or with it. -/
theorem exists_staysInList (ha : a.InList) (hend : ∃ t ∈ ts, t.isEndOfFile = true) :
    ∃ init last rest accepted, ts = init ++ last :: rest ∧ a.StaysInList init ∧
      ((a.after init).respond last).next = .body accepted := by
  induction ts generalizing a with
  | nil =>
    obtain ⟨t, ht, -⟩ := hend
    cases ht
  | cons t ts ih =>
    obtain ⟨ht, hrest⟩ := List.forall_mem_cons.mp hts
    rcases next_of_listAnswer ha ht with hnext | ⟨accepted, hbody⟩
    · have hlater : ∃ u ∈ ts, u.isEndOfFile = true := by
        obtain ⟨u, hu, hlast⟩ := hend
        rcases List.mem_cons.mp hu with rfl | hu
        · rcases a.next_respond_endOfFile ((Token.isEndOfFile_iff u).mp hlast) with h | ⟨-, h⟩ <;>
            rw [h] at hnext <;> exact hnext.elim
        · exact ⟨u, hu, hlast⟩
      obtain ⟨init, last, rest, accepted, rfl, hstays, hbody⟩ := ih hrest hnext hlater
      exact ⟨t :: init, last, rest, accepted, rfl, staysInList_cons.mpr ⟨ha, hstays⟩, hbody⟩
    · exact ⟨[], t, ts, accepted, rfl, staysInList_nil.mpr ha, hbody⟩

end Rows

section Over

variable {init : List Token} {last : Token} {accepted : Bool}
  (hinit : ∀ t ∈ init, t.isComment = false) (hlast : last.isComment = false)
  (hstays : parameterList.StaysInList init)
  (hbody : ((parameterList.after init).respond last).next = .body accepted)

include hinit hstays

/-- No list is complete before the token at which it is over. -/
theorem not_parameterList_of_prefix {us : List Token} (hus : us <+: init)
    (ps : List (Token × Token)) : ¬ ParameterList us ps := by
  intro h
  have hpart : parameterList.StaysInList us := fun part hpart => hstays part (hpart.trans hus)
  have hcloses := hpart.closes_append (fun t ht => hinit t (hus.subset ht)) []
  rw [List.append_nil, closes_nil_iff] at hcloses
  have hin := hpart.inList_after
  rw [hcloses.mp ⟨ps, h⟩] at hin
  exact hin

include hlast hbody

theorem exists_parameterList_iff (us : List Token) :
    (∃ ps, ParameterList (init ++ last :: us) ps) ↔ (body accepted).Closes us := by
  rw [← hbody, ← closes_cons hstays.inList_after hlast]
  exact hstays.closes_append hinit (last :: us)

theorem brokenList_of_staysInList (hbroken : accepted = false) : BrokenList (init ++ [last]) := by
  have hnone : ∀ us ps, ¬ ParameterList (init ++ last :: us) ps := by
    intro us ps h
    have hcloses := (exists_parameterList_iff hinit hlast hstays hbody us).mp ⟨ps, h⟩
    simp [hbroken, Closes] at hcloses
  refine ⟨init, last, rfl, (openList_iff_staysInList hinit).mpr hstays, ?_, hnone []⟩
  rintro ⟨t, more, ps, h⟩
  exact hnone (t :: more) ps (by simpa using h)

theorem parameterList_of_staysInList (haccepted : accepted = true) :
    ParameterList (init ++ [last]) (completePairs init.tail) := by
  obtain ⟨ps, hps⟩ := (exists_parameterList_iff hinit hlast hstays hbody []).mpr
    ((closes_nil_iff _).mpr (by rw [haccepted]))
  have hpairs := hps.eq_completePairs
  rw [List.dropLast_concat] at hpairs
  rwa [hpairs] at hps

/-- Tokens that start with a parameter list are read as that list. -/
theorem accepted_of_parameterList {rest us vs : List Token} {ps : List (Token × Token)}
    (hsplit : init ++ last :: rest = us ++ vs) (h : ParameterList us ps) : accepted = true := by
  have hnone : ¬ us <+: init := fun hpart =>
    not_parameterList_of_prefix hinit hstays hpart ps h
  have hus : us <+: init ++ last :: rest := ⟨vs, hsplit.symm⟩
  rcases List.prefix_or_prefix_of_prefix (List.prefix_append init (last :: rest)) hus with
    ⟨more, rfl⟩ | hpart
  · cases more with
    | nil => exact (hnone (by simp)).elim
    | cons t more =>
      obtain rfl : last = t :=
        (List.cons.inj (List.append_cancel_left (hsplit.trans (List.append_assoc ..)))).1
      have hcloses := (exists_parameterList_iff hinit hlast hstays hbody more).mp ⟨ps, h⟩
      cases accepted with
      | true => rfl
      | false => exact hcloses.elim
  · exact (hnone hpart).elim

end Over

end Awaiting

namespace SyntaxBuilder

/-- The tree of `grown` is that of `b` with outlines put under the function that came last, behind
the children it has, and nothing else of it is changed. -/
structure GrowsBy (b grown : SyntaxBuilder) (os : List SyntaxOutline) : Prop where
  nodes : ∀ before function after, b.tree.nodes.toList = before ++ function :: after →
    b.function = before.length →
    grown.tree.nodes.toList =
      before ++ { function with
        children := function.children ++ (handles b.tree.size os).toArray } ::
        (after ++ nodesAll b.function b.tree.size b.tree.nextId os)
  nextId : grown.tree.nextId = b.tree.nextId + sizeAll os
  function : grown.function = b.function

theorem add_parameter_growsBy (b : SyntaxBuilder) (p : Token × Token) :
    b.GrowsBy (b.add (parameterOf p)) [outlineOf p] := by
  refine ⟨fun before function after hnodes hfunction => ?_, ?_, rfl⟩
  · have hsize : b.tree.size = (before ++ function :: after).length := by
      rw [← hnodes]
      rfl
    have hnamed := Forest.toList_nodes_append hnodes .paramVarDecl p.2 p.2.text
    rw [← List.cons_append, ← List.append_assoc] at hnamed
    have htyped := Forest.toList_nodes_append hnamed .typeRef p.1 p.1.text
    have hhandle : (before ++ { function with children := function.children.push b.tree.size } ::
        after).length = b.tree.size := by
      rw [hsize, List.length_append, List.length_append, List.length_cons, List.length_cons]
    rw [hhandle, Forest.size_append, Forest.nextId_append, ← hfunction] at htyped
    simp only [add, parameterOf, htyped, outlineOf, parameterOutline, handles, nodesAll,
      Outline.nodes]
    simp
  · simp [add, parameterOf, Forest.nextId_append, outlineOf, parameterOutline, sizeAll,
      Outline.size]

theorem addAll_parameters_growsBy (b : SyntaxBuilder) (ps : List (Token × Token)) :
    b.GrowsBy (b.addAll (ps.map parameterOf)) (ps.map outlineOf) := by
  induction ps generalizing b with
  | nil =>
    refine ⟨fun before function after hnodes _ => ?_, rfl, rfl⟩
    simpa [addAll_nil, handles, nodesAll] using hnodes
  | cons p ps ih =>
    have hfirst := b.add_parameter_growsBy p
    have hrest := ih (b.add (parameterOf p))
    have hsize : (b.add (parameterOf p)).tree.size = b.tree.size + (outlineOf p).size := by
      simp [add, parameterOf, Forest.size_append, outlineOf, parameterOutline, sizeAll,
        Outline.size]
    refine ⟨fun before function after hnodes hfunction => ?_, ?_, ?_⟩
    · have hgrown :=
        hrest.nodes _ _ _ (hfirst.nodes before function after hnodes hfunction) hfunction
      rw [List.map_cons, List.map_cons, addAll_cons, hgrown, hsize, hfirst.nextId, hfirst.function]
      simp [handles, nodesAll, sizeAll]
    · rw [List.map_cons, List.map_cons, addAll_cons, hrest.nextId, hfirst.nextId]
      simp [sizeAll, Nat.add_assoc]
    · exact hrest.function.trans hfirst.function

end SyntaxBuilder

/-- The names of parameters come behind those that are declared. -/
theorem declaredSymbols_parameters {file : String} {cs : List Construct} {names : List String}
    (h : declaredSymbols file cs = [(fileStem file, names)]) (ps : List (Token × Token)) :
    declaredSymbols file (cs ++ ps.map parameterOf) =
      [(fileStem file, names ++ ps.map (·.2.text))] := by
  have hparameters : (ps.map parameterOf).filterMap Construct.declared? = ps.map (·.2.text) := by
    rw [List.filterMap_map, ← List.filterMap_eq_map]
    rfl
  have hne : cs.filterMap Construct.declared? ≠ [] := by
    intro hnil
    rw [declaredSymbols_of_nil file hnil] at h
    cases h
  rw [declaredSymbols_of_ne_nil file hne] at h
  obtain rfl : cs.filterMap Construct.declared? = names := by simpa using h
  rw [declaredSymbols_of_ne_nil file (by simp [hne]), List.filterMap_append, hparameters]

open Awaiting

/-- How tokens are read where a parameter list is due. The list is over with `last`: it is accepted
there, or broken off. -/
structure ListReading (ts init : List Token) (last : Token) (rest : List Token) (accepted : Bool)
    (ps : List (Token × Token)) : Prop where
  tokens : ts = init ++ last :: rest
  stays : parameterList.StaysInList init
  isOver : parameterList.after (init ++ [last]) = .body accepted
  accepted_iff : accepted = true ↔ ∃ us vs qs, ts = us ++ vs ∧ ParameterList us qs
  isList : accepted = true → ParameterList (init ++ [last]) ps ∧
    parameterList.faults (init ++ [last]) = []
  isBroken : accepted = false → BrokenList (init ++ [last]) ∧ ps = completePairs init.tail ∧
    ∃ fault, parameterList.faults (init ++ [last]) = [last.blame fault]
  constructs : parameterList.constructs (init ++ [last]) = ps.map parameterOf
  goesOn : parameterList.responses ts =
    parameterList.responses (init ++ [last]) ++ (body accepted).responses rest

/-- A parameter list that is due is accepted exactly where the tokens start with one, and is read to
its end without fault. Otherwise it is broken off at the first token that no parameter list has
there, which alone is at fault. Either way recognition goes on behind the last token that was read,
and all that is added to tree and symbols are the complete pairs before it. -/
theorem parameterList_read {ts : List Token} (noComment : ∀ t ∈ ts, t.isComment = false)
    (ends : ∃ t ∈ ts, t.isEndOfFile = true) :
    ∃ init last rest accepted ps, ListReading ts init last rest accepted ps ∧
      (∀ b : SyntaxBuilder,
        b.GrowsBy (b.addAll (parameterList.constructs (init ++ [last]))) (ps.map outlineOf)) ∧
      ∀ file cs names, declaredSymbols file cs = [(fileStem file, names)] →
        declaredSymbols file (cs ++ parameterList.constructs (init ++ [last])) =
          [(fileStem file, names ++ ps.map (·.2.text))] := by
  obtain ⟨init, last, rest, accepted, rfl, hstays, hbody⟩ :=
    exists_staysInList noComment (a := .parameterList) trivial ends
  obtain ⟨hinit, hbehind⟩ := List.forall_mem_append.mp noComment
  obtain ⟨hlast, -⟩ := List.forall_mem_cons.mp hbehind
  obtain ⟨hfaults, hconstructs⟩ := hstays.faults_constructs hinit
  obtain ⟨hnone, hsilent, hblamed⟩ := answer_over hstays.inList_after hlast hbody
  have hover : parameterList.after (init ++ [last]) = .body accepted := by
    rw [after_append]
    exact hbody
  have hread : parameterList.constructs (init ++ [last]) =
      (completePairs init.tail).map parameterOf := by
    rw [constructs_append, hconstructs, constructs_singleton, hnone]
    exact List.append_nil _
  have hfaulty : parameterList.faults (init ++ [last]) =
      ((parameterList.after init).respond last).faults := by
    rw [faults_append, hfaults, faults_singleton]
    rfl
  have hlist := parameterList_of_staysInList hinit hlast hstays hbody
  refine ⟨init, last, rest, accepted, completePairs init.tail,
    ⟨rfl, hstays, hover, ⟨fun h => ?_, ?_⟩, fun h => ?_, fun h => ?_, hread, ?_⟩,
    fun b => ?_, fun file cs names h => ?_⟩
  · exact ⟨init ++ [last], rest, _, by simp, hlist h⟩
  · rintro ⟨us, vs, qs, hsplit, hqs⟩
    exact accepted_of_parameterList hinit hlast hstays hbody hsplit hqs
  · exact ⟨hlist h, hfaulty.trans (hsilent h)⟩
  · obtain ⟨fault, hfault⟩ := hblamed h
    exact ⟨brokenList_of_staysInList hinit hlast hstays hbody h, rfl, fault, hfaulty.trans hfault⟩
  · rw [← hover, ← responses_append, List.append_assoc, List.singleton_append]
  · rw [hread]
    exact b.addAll_parameters_growsBy _
  · rw [hread]
    exact declaredSymbols_parameters h _

theorem parameterList_read_trailingComma :
    let text := "fun f(int a,) \x7b"
    let ts := (significant (tokenize "main.sls" text)).drop 2
    (∀ t ∈ ts, t.isComment = false) ∧ (∃ t ∈ ts, t.isEndOfFile = true) ∧
    ∃ init last rest accepted ps, ListReading ts init last rest accepted ps ∧
      (∀ b : SyntaxBuilder,
        b.GrowsBy (b.addAll (parameterList.constructs (init ++ [last]))) (ps.map outlineOf)) ∧
      ∀ file cs names, declaredSymbols file cs = [(fileStem file, names)] →
        declaredSymbols file (cs ++ parameterList.constructs (init ++ [last])) =
          [(fileStem file, names ++ ps.map (·.2.text))] := by
  intro text ts
  have hts : ∀ t ∈ ts, t.isComment = false := by decide +kernel
  have hend : ∃ t ∈ ts, t.isEndOfFile = true := by decide +kernel
  exact ⟨hts, hend, parameterList_read hts hend⟩

end SlsLang
