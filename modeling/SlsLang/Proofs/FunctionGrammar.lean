import SlsLang.Proofs.ParameterGrammar

namespace SlsLang

/-- What a row of tokens leaves due: a function, or what is missing of the one that is under way. -/
inductive Due
  | function
  | name
  | list
  | brace
  | closing
deriving DecidableEq, Repr

/-- A statement may start behind these tokens of a body. -/
def StatementStarts (ts : List Token) : Prop := ∀ t ∈ ts.getLast?, t.isPunctuation ";" = true

/-- None of these tokens of a body closes it. -/
def OpenBody (ts : List Token) : Prop :=
  ∀ init t rest, ts = init ++ t :: rest → t.isPunctuation "\x7d" = true → ¬ StatementStarts init

/-- How tokens divide into functions, and what they leave due. A function is given up at the token
that stands where its name is due, or the brace of its body. -/
inductive Leaves : List Token → Due → Prop
  | nil : Leaves [] .function
  | stray {ts : List Token} {t : Token} (top : Leaves ts .function)
    (noKeyword : t.isKeyword "fun" = false) : Leaves (ts ++ [t]) .function
  | begun {ts : List Token} {t : Token} (top : Leaves ts .function)
    (isKeyword : t.isKeyword "fun" = true) : Leaves (ts ++ [t]) .name
  | unnamed {ts : List Token} {t : Token} (start : Leaves ts .name)
    (noName : t.isIdentifier = false) : Leaves (ts ++ [t]) .function
  | listOpen {ts us : List Token} {name : Token} (start : Leaves ts .name)
    (isName : name.isIdentifier = true) (isOpen : OpenList us) : Leaves (ts ++ name :: us) .list
  | listClosed {ts us : List Token} {name : Token} {ps : List (Token × Token)}
    (start : Leaves ts .name) (isName : name.isIdentifier = true) (isList : ParameterList us ps) :
    Leaves (ts ++ name :: us) .brace
  | listBroken {ts us : List Token} {name : Token} (start : Leaves ts .name)
    (isName : name.isIdentifier = true) (isBroken : BrokenList us) :
    Leaves (ts ++ name :: us) .brace
  | unopened {ts : List Token} {t : Token} (header : Leaves ts .brace)
    (noBrace : t.isPunctuation "\x7b" = false) : Leaves (ts ++ [t]) .function
  | bodyOpen {ts us : List Token} {brace : Token} (header : Leaves ts .brace)
    (isBrace : brace.isPunctuation "\x7b" = true) (isOpen : OpenBody us) :
    Leaves (ts ++ brace :: us) .closing
  | bodyClosed {ts us : List Token} {brace closing : Token} (header : Leaves ts .brace)
    (isBrace : brace.isPunctuation "\x7b" = true) (isOpen : OpenBody us)
    (starts : StatementStarts us) (isClosing : closing.isPunctuation "\x7d" = true) :
    Leaves (ts ++ brace :: (us ++ [closing])) .function

/-- The parameter list of a function is broken off at the last of the tokens. -/
def ListBrokenOff (ts : List Token) : Prop :=
  ∃ start name us, ts = start ++ name :: us ∧ Leaves start .name ∧ name.isIdentifier = true ∧
    BrokenList us

/-- Behind the tokens a statement of a body may start. -/
def StatementDue (ts : List Token) : Prop :=
  ∃ header brace us, ts = header ++ brace :: us ∧ Leaves header .brace ∧
    brace.isPunctuation "\x7b" = true ∧ OpenBody us ∧ StatementStarts us

theorem openList_nil : OpenList [] := by
  obtain ⟨t, ts, ps, h⟩ := Awaiting.exists_closes (a := .parameterList) trivial
  exact ⟨t, ts, ps, h⟩

theorem statementStarts_concat (ts : List Token) (t : Token) :
    StatementStarts (ts ++ [t]) ↔ t.isPunctuation ";" = true := by
  simp [StatementStarts]

theorem openBody_nil : OpenBody [] := by
  intro init t rest h
  simp at h

theorem openBody_concat {ts : List Token} {t : Token} (h : OpenBody ts)
    (ht : t.isPunctuation "\x7d" = true → ¬ StatementStarts ts) : OpenBody (ts ++ [t]) := by
  intro init u rest hsplit hu
  rcases List.eq_nil_or_concat rest with rfl | ⟨rest, v, rfl⟩
  · obtain ⟨rfl, hlast⟩ := List.append_inj' hsplit rfl
    obtain rfl : t = u := by simpa using hlast
    exact ht hu
  · rw [List.concat_eq_append, ← List.cons_append, ← List.append_assoc] at hsplit
    exact h init u rest (List.append_inj_left' hsplit rfl) hu

theorem OpenBody.of_concat {ts : List Token} {t : Token} (h : OpenBody (ts ++ [t])) :
    OpenBody ts ∧ (t.isPunctuation "\x7d" = true → ¬ StatementStarts ts) :=
  ⟨fun init u rest hsplit => h init u (rest ++ [t]) (by simp [hsplit]), h ts t [] rfl⟩

/-- Every row of tokens leaves something due. -/
theorem exists_leaves (ts : List Token) : ∃ due, Leaves ts due := by
  induction ts using List.reverseRecOn with
  | nil => exact ⟨_, .nil⟩
  | append_singleton ts t ih =>
    obtain ⟨due, h⟩ := ih
    cases due with
    | function =>
      cases hk : t.isKeyword "fun" with
      | true => exact ⟨_, .begun h hk⟩
      | false => exact ⟨_, .stray h hk⟩
    | name =>
      cases hn : t.isIdentifier with
      | true => exact ⟨_, .listOpen h hn openList_nil⟩
      | false => exact ⟨_, .unnamed h hn⟩
    | list =>
      cases h with
      | @listOpen ts us name start isName isOpen =>
        rw [List.append_assoc, List.cons_append]
        by_cases hopen : OpenList (us ++ [t])
        · exact ⟨_, .listOpen start isName hopen⟩
        by_cases hlist : ∃ ps, ParameterList (us ++ [t]) ps
        · obtain ⟨ps, hps⟩ := hlist
          exact ⟨_, .listClosed start isName hps⟩
        · exact ⟨_, .listBroken start isName
            ⟨us, t, rfl, isOpen, hopen, fun ps hps => hlist ⟨ps, hps⟩⟩⟩
    | brace =>
      cases hb : t.isPunctuation "\x7b" with
      | true => exact ⟨_, .bodyOpen h hb openBody_nil⟩
      | false => exact ⟨_, .unopened h hb⟩
    | closing =>
      cases h with
      | @bodyOpen ts us brace header isBrace isOpen =>
        rw [List.append_assoc, List.cons_append]
        by_cases hclosing : t.isPunctuation "\x7d" = true ∧ StatementStarts us
        · exact ⟨_, .bodyClosed header isBrace isOpen hclosing.2 hclosing.1⟩
        · exact ⟨_, .bodyOpen header isBrace
            (openBody_concat isOpen fun ht hs => hclosing ⟨ht, hs⟩)⟩

namespace Due

/-- What is due while functions are recognized. -/
def Awaits : Due → Awaiting → Prop
  | function, a => a = .function
  | name, a => a = .functionName
  | list, a => a.InList
  | brace, a => ∃ listAccepted, a = .body listAccepted
  | closing, a => ∃ run, a = .statement run

theorem Awaits.unique {d d' : Due} {a : Awaiting} (h : d.Awaits a) (h' : d'.Awaits a) :
    d = d' := by
  cases a <;> cases d <;> cases d' <;> simp_all [Awaits, Awaiting.InList]

end Due

namespace Awaiting

theorem after_concat (a : Awaiting) (ts : List Token) (t : Token) :
    a.after (ts ++ [t]) = ((a.after ts).respond t).next := by
  rw [after_append]
  rfl

/-- A token that neither ends a statement nor stands where its body ends joins it. -/
theorem respond_statement {t : Token} (ht : t.Ordinary) {kept : List Token}
    (hs : t.isPunctuation ";" = false) (hb : kept = [] → t.isPunctuation "\x7d" = false) :
    (statement kept).respond t = .pass (.statement (t :: kept)) := by
  have hgoes : (kept.isEmpty && t.isPunctuation "\x7d") = false := by
    cases kept with
    | nil => simpa using hb rfl
    | cons => simp
  simp [respond_ordinary ht, respondTo, hgoes, ht.endOfFile, hs]

/-- At a semicolon the tokens kept are classified. -/
theorem respond_statement_semicolon {t : Token} (ht : t.isPunctuation ";" = true)
    (kept : List Token) : (statement kept).respond t =
      ⟨.statement [], (classify kept.reverse).statement?.map .statement,
        (classify kept.reverse).faults⟩ := by
  have hkind := (Token.kind_of_isPunctuation ht).1
  have hb : t.isPunctuation "\x7d" = false := Token.not_isPunctuation_of_ne ht (by decide)
  simp [respond, respondTo, Token.isComment, Token.isEndOfFile, hkind, hb, ht]

/-- Where a statement may start, a brace ends the body. -/
theorem respond_closing {t : Token} (h : t.isPunctuation "\x7d" = true) :
    (statement []).respond t = .pass .function := by
  have hkind := (Token.kind_of_isPunctuation h).1
  simp [respond, respondTo, Token.isComment, hkind, h]

theorem after_of_openBody {ts : List Token} (hts : ∀ t ∈ ts, t.Ordinary) (h : OpenBody ts) :
    ∃ run, (statement []).after ts = .statement run ∧ (run = [] ↔ StatementStarts ts) := by
  induction ts using List.reverseRecOn with
  | nil => exact ⟨[], rfl, by simp [StatementStarts]⟩
  | append_singleton ts t ih =>
    obtain ⟨hinit, ht⟩ := List.forall_mem_append.mp hts
    obtain ⟨hopen, hclosing⟩ := h.of_concat
    obtain ⟨run, hafter, hrun⟩ := ih hinit hopen
    rw [after_concat, hafter, statementStarts_concat]
    cases hs : t.isPunctuation ";" with
    | true =>
      rw [respond_statement_semicolon hs]
      exact ⟨[], rfl, by simp⟩
    | false =>
      have hbrace : run = [] → t.isPunctuation "\x7d" = false := fun hnone =>
        Bool.eq_false_iff.mpr fun hb => hclosing hb (hrun.mp hnone)
      rw [respond_statement (ht t (by simp)) hs hbrace]
      exact ⟨t :: run, rfl, by simp⟩

section Steps

variable {ts us : List Token}

theorem after_ordinary {t : Token} (hts : ∀ u ∈ ts ++ [t], u.Ordinary) :
    function.after (ts ++ [t]) = ((function.after ts).respondTo t).next ∧
      ∀ u ∈ ts, u.Ordinary := by
  obtain ⟨hinit, ht⟩ := List.forall_mem_append.mp hts
  rw [after_concat, respond_ordinary (ht t (by simp))]
  exact ⟨rfl, hinit⟩

theorem after_name {name : Token} (hts : ∀ t ∈ ts ++ name :: us, t.Ordinary)
    (isName : name.isIdentifier = true)
    (h : (∀ t ∈ ts, t.Ordinary) → function.after ts = .functionName) :
    function.after (ts ++ name :: us) = parameterList.after us ∧ ∀ t ∈ us, t.Ordinary := by
  obtain ⟨hinit, hrest⟩ := List.forall_mem_append.mp hts
  obtain ⟨hname, hus⟩ := List.forall_mem_cons.mp hrest
  rw [after_append, h hinit, after_cons, respond_ordinary hname]
  simpa [respondTo, isName, Response.accept] using hus

theorem after_brace {brace : Token} (hts : ∀ t ∈ ts ++ brace :: us, t.Ordinary)
    (isBrace : brace.isPunctuation "\x7b" = true)
    (h : (∀ t ∈ ts, t.Ordinary) → ∃ listAccepted, function.after ts = .body listAccepted) :
    function.after (ts ++ brace :: us) = (statement []).after us ∧ ∀ t ∈ us, t.Ordinary := by
  obtain ⟨hinit, hrest⟩ := List.forall_mem_append.mp hts
  obtain ⟨hbrace, hus⟩ := List.forall_mem_cons.mp hrest
  obtain ⟨listAccepted, hafter⟩ := h hinit
  rw [after_append, hafter, after_cons, respond_ordinary hbrace]
  simpa [respondTo, isBrace, Response.accept] using hus

end Steps

end Awaiting

open Awaiting

/-- What tokens leave due by the grammar of functions is what is due while they are recognized. -/
theorem Leaves.awaits {ts : List Token} {due : Due} (h : Leaves ts due)
    (hts : ∀ t ∈ ts, t.Ordinary) : due.Awaits (Awaiting.function.after ts) := by
  induction h with
  | nil => rfl
  | @stray ts t _ noKeyword ih =>
    obtain ⟨hnext, hinit⟩ := after_ordinary hts
    have hafter : Awaiting.function.after ts = .function := ih hinit
    show Awaiting.function.after (ts ++ [t]) = .function
    rw [hnext, hafter, respondTo]
    simp only [noKeyword, Bool.false_eq_true, if_false]
    split <;> rfl
  | @begun ts t _ isKeyword ih =>
    obtain ⟨hnext, hinit⟩ := after_ordinary hts
    have hafter : Awaiting.function.after ts = .function := ih hinit
    have hvalid : t.kind ≠ .invalid := by
      intro hk
      simp [Token.isKeyword, hk] at isKeyword
    show Awaiting.function.after (ts ++ [t]) = .functionName
    rw [hnext, hafter, respondTo, if_neg hvalid, if_pos isKeyword]
    rfl
  | @unnamed ts t _ noName ih =>
    obtain ⟨hnext, hinit⟩ := after_ordinary hts
    have hafter : Awaiting.function.after ts = .functionName := ih hinit
    show Awaiting.function.after (ts ++ [t]) = .function
    rw [hnext, hafter, respondTo, noName]
    rfl
  | listOpen _ isName isOpen ih =>
    obtain ⟨hafter, hus⟩ := after_name hts isName ih
    show InList _
    rw [hafter]
    exact inList_of_openList hus isOpen
  | listClosed _ isName isList ih =>
    obtain ⟨hafter, hus⟩ := after_name hts isName ih
    exact ⟨true, hafter.trans (after_of_parameterList hus isList)⟩
  | listBroken _ isName isBroken ih =>
    obtain ⟨hafter, hus⟩ := after_name hts isName ih
    exact ⟨false, hafter.trans (after_of_brokenList hus isBroken)⟩
  | @unopened ts t _ noBrace ih =>
    obtain ⟨hnext, hinit⟩ := after_ordinary hts
    obtain ⟨listAccepted, hafter⟩ := ih hinit
    show Awaiting.function.after (ts ++ [t]) = .function
    rw [hnext, hafter, respondTo]
    simp only [noBrace, Bool.false_eq_true, if_false]
    split <;> rfl
  | bodyOpen _ isBrace isOpen ih =>
    obtain ⟨hafter, hus⟩ := after_brace hts isBrace ih
    obtain ⟨run, hrun, -⟩ := after_of_openBody hus isOpen
    exact ⟨run, hafter.trans hrun⟩
  | @bodyClosed ts us brace closing _ isBrace isOpen starts isClosing ih =>
    obtain ⟨hafter, hbody⟩ := after_brace hts isBrace ih
    obtain ⟨hus, -⟩ := List.forall_mem_append.mp hbody
    obtain ⟨run, hrun, hstarts⟩ := after_of_openBody hus isOpen
    obtain rfl := hstarts.mpr starts
    show Awaiting.function.after _ = .function
    rw [hafter, after_concat, hrun, respond_closing isClosing]
    rfl

section Ordinary

variable {ts : List Token} (hts : ∀ t ∈ ts, t.Ordinary)
include hts

theorem Leaves.unique {due due' : Due} (h : Leaves ts due) (h' : Leaves ts due') : due = due' :=
  (h.awaits hts).unique (h'.awaits hts)

theorem leaves_iff {due : Due} : Leaves ts due ↔ due.Awaits (Awaiting.function.after ts) := by
  refine ⟨fun h => h.awaits hts, fun h => ?_⟩
  obtain ⟨due', h'⟩ := exists_leaves ts
  rwa [h.unique (h'.awaits hts)]

/-- Broken off is the one list whose body is due without its having been accepted. -/
theorem listBrokenOff_iff : ListBrokenOff ts ↔ Awaiting.function.after ts = .body false := by
  constructor
  · rintro ⟨start, name, us, rfl, hstart, isName, isBroken⟩
    obtain ⟨hafter, hus⟩ := after_name hts isName hstart.awaits
    rw [hafter, after_of_brokenList hus isBroken]
  · intro h
    have hleaves : Leaves ts .brace := (leaves_iff hts).mpr ⟨false, h⟩
    cases hleaves with
    | listClosed hstart isName isList =>
      obtain ⟨hafter, hus⟩ := after_name hts isName hstart.awaits
      rw [hafter, after_of_parameterList hus isList] at h
      simp at h
    | listBroken hstart isName isBroken => exact ⟨_, _, _, rfl, hstart, isName, isBroken⟩

theorem statementDue_iff : StatementDue ts ↔ Awaiting.function.after ts = .statement [] := by
  constructor
  · rintro ⟨header, brace, us, rfl, hheader, isBrace, isOpen, starts⟩
    obtain ⟨hafter, hus⟩ := after_brace hts isBrace hheader.awaits
    obtain ⟨run, hrun, hstarts⟩ := after_of_openBody hus isOpen
    rw [hafter, hrun, hstarts.mpr starts]
  · intro h
    have hleaves : Leaves ts .closing := (leaves_iff hts).mpr ⟨[], h⟩
    cases hleaves with
    | bodyOpen hheader isBrace isOpen =>
      obtain ⟨hafter, hus⟩ := after_brace hts isBrace hheader.awaits
      obtain ⟨run, hrun, hstarts⟩ := after_of_openBody hus isOpen
      rw [hafter, hrun] at h
      exact ⟨_, _, _, rfl, hheader, isBrace, isOpen, hstarts.mp (by simpa using h)⟩

end Ordinary

end SlsLang
