import SlsLang.CallStatement

namespace SlsLang

namespace Statement

def values : Statement → List Token
  | .declaration _ _ init? => init?.toList
  | .assignment _ value => [value]
  | .call _ _ arguments => arguments

/-- The tokens that a statement keeps, in the order of the text. Of the name that a call leads to it
keeps the first. -/
def tokens : Statement → List Token
  | .declaration name type init? => name :: type :: init?.toList
  | .assignment target value => [target, value]
  | .call head _ arguments => head :: arguments

/-- A statement as it can come of a run of tokens: it keeps some of them in their order, and what it
takes for values can stand as values. -/
structure MadeOf (s : Statement) (run : List Token) : Prop where
  tokens : s.tokens.Sublist run
  values : ∀ v ∈ s.values, v.isValue = true

end Statement

open Statement

theorem ofShape?_madeOf {run : List Token} {s : Statement} (h : ofShape? run = some s) :
    s.MadeOf run := by
  unfold ofShape? at h
  split at h
  next target equals value =>
    split at h
    next hc =>
      cases h
      simp only [Bool.and_eq_true] at hc
      exact ⟨.cons_cons target (.cons equals (.refl [value])), by simp [values, hc.2]⟩
    next => simp at h
  next var name colon type =>
    split at h
    next hc =>
      cases h
      exact ⟨.cons var (.cons_cons name (.cons colon (.refl [type]))), by simp [values]⟩
    next => simp at h
  next var name colon type equals value =>
    split at h
    next hc =>
      cases h
      simp only [Bool.and_eq_true] at hc
      exact ⟨.cons var (.cons_cons name (.cons colon (.cons_cons type (.cons equals
        (.refl [value]))))), by simp [values, hc.2]⟩
    next => simp at h
  next => simp at h

theorem callArguments_sublist (ts : List Token) :
    (callArguments ts).1.Sublist ts ∧ ∀ v ∈ (callArguments ts).1, v.isValue = true := by
  have hvalue : ∀ t : Token, (if t.isValue = true then [t] else []).Sublist [t] ∧
      ∀ v ∈ (if t.isValue = true then [t] else []), v.isValue = true := by
    intro t
    split
    next ht => exact ⟨.refl [t], by simpa using ht⟩
    next => exact ⟨List.nil_sublist _, by simp⟩
  fun_induction callArguments ts with
  | case1 => exact ⟨.refl [], by simp⟩
  | case2 t => exact hvalue t
  | case3 t comma ts value hc values faults heq ih =>
    rw [heq] at ih
    refine ⟨(hvalue t).1.append (.cons comma ih.1), fun v hv => ?_⟩
    rcases List.mem_append.mp hv with hv | hv
    · exact (hvalue t).2 v hv
    · exact ih.2 v hv
  | case4 t comma ts value hc =>
    exact ⟨(hvalue t).1.trans (List.sublist_append_left [t] (comma :: ts)), (hvalue t).2⟩

/-- What a call is made of: the tokens before its first opening parenthesis give its name, and those
behind it its arguments. -/
theorem classifyCall_statement? {run : List Token} {last : Token} {s : Statement}
    (h : (classifyCall run last).statement? = some s) :
    ∃ head callee opening inside, run = (head :: callee) ++ opening :: inside ∧
      s = .call head (String.join (calleePieces false (head :: callee)).1)
        (callArguments inside).1 := by
  have hrun : run.takeWhile (!·.isPunctuation "(") ++
      run.drop (run.takeWhile (!·.isPunctuation "(")).length = run :=
    List.prefix_iff_eq_append.mp (List.takeWhile_prefix _)
  simp only [classifyCall] at h
  split at h
  next => simp at h
  next opening inside hd =>
    split at h
    next => simp at h
    next head callee hc =>
      split at h
      next => simp at h
      next =>
        cases h
        rw [hd, hc] at hrun
        exact ⟨head, callee, opening, inside, hrun.symm, by rw [hc]⟩

theorem classifyCall_madeOf {run : List Token} {last : Token} {s : Statement}
    (h : (classifyCall run last).statement? = some s) : s.MadeOf run := by
  obtain ⟨head, callee, opening, inside, rfl, rfl⟩ := classifyCall_statement? h
  obtain ⟨hsublist, hvalues⟩ := callArguments_sublist inside
  refine ⟨.cons_cons head ?_, hvalues⟩
  exact (hsublist.trans (List.sublist_cons_self opening inside)).trans
    (List.sublist_append_right callee (opening :: inside))

/-- A run of tokens is a statement by its shape, or a call that its last token closes. -/
theorem classify_statement? {run : List Token} {s : Statement}
    (h : (classify run).statement? = some s) : ofShape? run = some s ∨
      ∃ last, (classifyCall run.dropLast last).statement? = some s := by
  unfold classify at h
  split at h
  next => simp at h
  next => simp at h
  next =>
    split at h
    next statement hs =>
      cases h
      exact .inl hs
    next =>
      split at h
      next last hl =>
        split at h
        next => exact .inr ⟨last, h⟩
        next => simp at h
      next => simp at h

/-- Whatever a run of tokens is taken for comes of these tokens. -/
theorem classify_madeOf {run : List Token} {s : Statement} (h : (classify run).statement? = some s) :
    s.MadeOf run := by
  rcases classify_statement? h with h | ⟨last, h⟩
  · exact ofShape?_madeOf h
  · obtain ⟨htokens, hvalues⟩ := classifyCall_madeOf h
    exact ⟨htokens.trans (List.dropLast_sublist run), hvalues⟩

end SlsLang
