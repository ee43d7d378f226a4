import SlsLang.Proofs.SignificantTokens
import SlsLang.Proofs.StatementTokens
import SlsLang.Proofs.SyntaxOutline

namespace SlsLang

def Construct.tokens : Construct → List Token
  | .function name => [name]
  | .parameter type name => [type, name]
  | .body brace => [brace]
  | .statement s => s.tokens

/-- What the statement takes for values can stand as values. -/
def Statement.Sound (s : Statement) : Prop := ∀ v ∈ s.values, v.isValue = true

def FunctionParts.Sound (f : FunctionParts) : Prop := ∀ b ∈ f.body?, ∀ s ∈ b.2, s.Sound

namespace FunctionParts

theorem constructs_parameter (name : Token) (ps : List (Token × Token)) (type parameter : Token) :
    (⟨name, ps ++ [(type, parameter)], none⟩ : FunctionParts).constructs =
      (⟨name, ps, none⟩ : FunctionParts).constructs ++ [.parameter type parameter] := by
  simp [constructs]

theorem constructs_body (name : Token) (ps : List (Token × Token)) (brace : Token)
    (ss : List Statement) : (⟨name, ps, some (brace, ss)⟩ : FunctionParts).constructs =
      (⟨name, ps, none⟩ : FunctionParts).constructs ++ .body brace :: ss.map .statement := by
  simp [constructs]

end FunctionParts

namespace Region

/-- The constructs that may come from here on: the rest of the function that is under way, and then
functions. -/
def Yields : Region → List Construct → Prop
  | between, cs => ∃ fs : List FunctionParts, (∀ f ∈ fs, f.Sound) ∧
      cs = fs.flatMap FunctionParts.constructs
  | header, cs => ∃ (ps : List (Token × Token)) (body? : Option (Token × List Statement))
      (fs : List FunctionParts), (∀ b ∈ body?, ∀ s ∈ b.2, s.Sound) ∧ (∀ f ∈ fs, f.Sound) ∧
      cs = ps.map (fun p => .parameter p.1 p.2) ++
        (body?.toList.flatMap fun b => .body b.1 :: b.2.map .statement) ++
        fs.flatMap FunctionParts.constructs
  | body, cs => ∃ (ss : List Statement) (fs : List FunctionParts), (∀ s ∈ ss, s.Sound) ∧
      (∀ f ∈ fs, f.Sound) ∧ cs = ss.map .statement ++ fs.flatMap FunctionParts.constructs

theorem yields_nil : Yields between [] := ⟨[], by simp, rfl⟩

variable {cs : List Construct}

/-- A function may break off anywhere. -/
theorem yields_of_between (r : Region) (h : Yields between cs) : Yields r cs := by
  obtain ⟨fs, hfs, hcs⟩ := h
  cases r with
  | between => exact ⟨fs, hfs, hcs⟩
  | header => exact ⟨[], none, fs, by simp, hfs, hcs⟩
  | body => exact ⟨[], fs, by simp, hfs, hcs⟩

theorem yields_function (name : Token) (h : Yields header cs) :
    Yields between (.function name :: cs) := by
  obtain ⟨ps, body?, fs, hbody, hfs, rfl⟩ := h
  refine ⟨⟨name, ps, body?⟩ :: fs, List.forall_mem_cons.mpr ⟨hbody, hfs⟩, ?_⟩
  rw [List.flatMap_cons, FunctionParts.constructs, List.cons_append]

theorem yields_parameter (type name : Token) (h : Yields header cs) :
    Yields header (.parameter type name :: cs) := by
  obtain ⟨ps, body?, fs, hbody, hfs, rfl⟩ := h
  exact ⟨(type, name) :: ps, body?, fs, hbody, hfs, rfl⟩

theorem yields_body (brace : Token) (h : Yields body cs) : Yields header (.body brace :: cs) := by
  obtain ⟨ss, fs, hss, hfs, rfl⟩ := h
  exact ⟨[], some (brace, ss), fs, by simpa using hss, hfs, by simp⟩

theorem yields_statement {s : Statement} (hs : s.Sound) (h : Yields body cs) :
    Yields body (.statement s :: cs) := by
  obtain ⟨ss, fs, hss, hfs, rfl⟩ := h
  exact ⟨s :: ss, fs, List.forall_mem_cons.mpr ⟨hs, hss⟩, hfs, rfl⟩

/-- The constructs that may have come so far: functions, and the start of the one under way. -/
def Yielded : Region → List Construct → Prop
  | between, cs => ∃ fs : List FunctionParts, cs = fs.flatMap FunctionParts.constructs
  | header, cs => ∃ (fs : List FunctionParts) (name : Token) (ps : List (Token × Token)),
      cs = fs.flatMap FunctionParts.constructs ++ (⟨name, ps, none⟩ : FunctionParts).constructs
  | body, cs => ∃ (fs : List FunctionParts) (name : Token) (ps : List (Token × Token))
      (brace : Token) (ss : List Statement), cs = fs.flatMap FunctionParts.constructs ++
        (⟨name, ps, some (brace, ss)⟩ : FunctionParts).constructs

theorem yielded_between {r : Region} (h : r.Yielded cs) :
    between.Yielded cs := by
  cases r with
  | between => exact h
  | header =>
    obtain ⟨fs, name, ps, rfl⟩ := h
    exact ⟨fs ++ [⟨name, ps, none⟩], by simp⟩
  | body =>
    obtain ⟨fs, name, ps, brace, ss, rfl⟩ := h
    exact ⟨fs ++ [⟨name, ps, some (brace, ss)⟩], by simp⟩

end Region

namespace Awaiting

/-- How an answer carries recognition on: its construct may come before whatever may come after it,
and the tokens that it completes a construct of or keeps are those that were there, in their order. -/
structure Advances (a : Awaiting) (t : Token) (r : Response) : Prop where
  yields : ∀ cs, r.next.region.Yields cs → a.region.Yields (r.construct?.toList ++ cs)
  tokens : (r.construct?.toList.flatMap Construct.tokens ++ r.next.tokens.reverse).Sublist
    (a.tokens.reverse ++ [t])

section Answers

variable {a : Awaiting} {t : Token}

theorem advances_silently {r : Response} (hc : r.construct? = none)
    (hr : r.next.region = a.region ∨ r.next.region = .between)
    (ht : r.next.tokens.reverse.Sublist (a.tokens.reverse ++ [t])) : Advances a t r := by
  refine ⟨fun cs hcs => ?_, by simpa [hc] using ht⟩
  rw [hc]
  rcases hr with h | h
  · rwa [h] at hcs
  · rw [h] at hcs
    exact Region.yields_of_between _ hcs

theorem Answer.advances {r : Response} (h : Answer a t r) : Advances a t r := by
  cases h with
  | skip => exact advances_silently rfl (.inl rfl) (List.sublist_append_left _ _)
  | pass stays kept =>
    refine advances_silently rfl stays ?_
    rcases kept with kept | kept <;> simp [Response.pass, kept]
  | refuse f stays kept => exact advances_silently rfl stays (by simp [Response.refuse, kept])
  | accept completes =>
    cases completes with
    | function =>
      exact ⟨fun cs hcs => Region.yields_function t hcs,
        by simp [Response.accept, tokens, Construct.tokens]⟩
    | parameter type =>
      exact ⟨fun cs hcs => Region.yields_parameter type t hcs,
        by simp [Response.accept, tokens, Construct.tokens]⟩
    | body listAccepted =>
      exact ⟨fun cs hcs => Region.yields_body t hcs,
        by simp [Response.accept, tokens, Construct.tokens]⟩
  | @classified run due =>
    subst due
    cases hs : (classify run.reverse).statement? with
    | none => exact advances_silently rfl (.inl rfl) (by simp [tokens])
    | some s =>
      obtain ⟨htokens, hsound⟩ := classify_madeOf hs
      refine ⟨fun cs hcs => Region.yields_statement hsound hcs, ?_⟩
      simpa [tokens, Construct.tokens] using htokens.trans (List.sublist_append_left _ _)

theorem respond_advances (a : Awaiting) (t : Token) : Advances a t (a.respond t) :=
  (a.answer_respond t).advances

end Answers

theorem constructs_yields (a : Awaiting) (ts : List Token) :
    a.region.Yields (a.constructs ts) := by
  -- Read from the end: the first answer goes before what the others may yield in its region.
  induction ts generalizing a with
  | nil => exact Region.yields_of_between _ Region.yields_nil
  | cons t ts ih =>
    rw [constructs_cons]
    exact (a.respond_advances t).yields _ (ih _)

/-- An answer leads from what may have come before it to what may have come behind it. -/
theorem Answer.yielded {a : Awaiting} {t : Token} {r : Response} (h : Answer a t r)
    {cs : List Construct} (hcs : a.region.Yielded cs) :
    r.next.region.Yielded (cs ++ r.construct?.toList) := by
  have hsilent : ∀ next : Awaiting, next.region = a.region ∨ next.region = .between →
      next.region.Yielded (cs ++ []) := by
    intro next stays
    rw [List.append_nil]
    rcases stays with stays | stays
    · rwa [stays]
    · rw [stays]
      exact Region.yielded_between hcs
  cases h with
  | skip => exact hsilent a (.inl rfl)
  | pass stays => exact hsilent _ stays
  | refuse f stays => exact hsilent _ stays
  | accept completes =>
    cases completes with
    | function =>
      obtain ⟨fs, rfl⟩ := hcs
      exact ⟨fs, t, [], rfl⟩
    | parameter type =>
      obtain ⟨fs, name, ps, rfl⟩ := hcs
      refine ⟨fs, name, ps ++ [(type, t)], ?_⟩
      rw [FunctionParts.constructs_parameter, List.append_assoc]
      rfl
    | body listAccepted =>
      obtain ⟨fs, name, ps, rfl⟩ := hcs
      refine ⟨fs, name, ps, t, [], ?_⟩
      rw [FunctionParts.constructs_body, List.append_assoc]
      rfl
  | @classified run due =>
    subst due
    cases (classify run.reverse).statement? with
    | none => exact hsilent _ (.inl rfl)
    | some s =>
      obtain ⟨fs, name, ps, brace, ss, rfl⟩ := hcs
      refine ⟨fs, name, ps, brace, ss ++ [s], ?_⟩
      rw [FunctionParts.constructs_body, FunctionParts.constructs_body]
      simp

/-- However far a text is read, what is recognized of it are functions and the start of one. -/
theorem constructs_yielded {a : Awaiting} {cs : List Construct} (h : a.region.Yielded cs)
    (ts : List Token) : (a.after ts).region.Yielded (cs ++ a.constructs ts) := by
  induction ts generalizing a cs with
  | nil =>
    rw [after_nil, constructs, responses_nil, List.filterMap_nil, List.append_nil]
    exact h
  | cons t ts ih =>
    have hnext := ih ((a.answer_respond t).yielded h)
    rwa [constructs_cons, after_cons, ← List.append_assoc]

/-- The tokens of what is recognized are tokens that were read, in the order of reading. -/
theorem constructs_sublist (a : Awaiting) (ts : List Token) :
    ((a.constructs ts).flatMap Construct.tokens).Sublist (a.tokens.reverse ++ ts) := by
  -- The tokens that a state keeps back are read already, and come out in the order of reading.
  induction ts generalizing a with
  | nil => simp [constructs, responses_nil]
  | cons t ts ih =>
    have hhead := ((a.respond_advances t).tokens).append (List.Sublist.refl ts)
    have htail := (List.Sublist.refl ((a.respond t).construct?.toList.flatMap
      Construct.tokens)).append (ih (a.respond t).next)
    rw [constructs_cons, List.flatMap_append]
    simpa using htail.trans (by simpa using hhead)

end Awaiting

/-- Whatever the readings are, functions are recognized of them one after the other. -/
theorem exists_functions (rs : List Reading) :
    ∃ fs : List FunctionParts, (∀ f ∈ fs, f.Sound) ∧
      (recognize rs).constructs = fs.flatMap FunctionParts.constructs :=
  Awaiting.function.constructs_yields (rs.map Reading.token)

/-- What is recognized keeps significant tokens only, each at most once and in their order. -/
theorem recognize_sublist (rs : List Reading) :
    ((recognize rs).constructs.flatMap Construct.tokens).Sublist
      (significant (rs.map Reading.token)) := by
  have h := Awaiting.function.constructs_sublist (significant (rs.map Reading.token))
  rwa [(Awaiting.function.constructs_faults_significant (rs.map Reading.token)).1] at h

end SlsLang
