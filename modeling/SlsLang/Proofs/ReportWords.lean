import Mathlib.Tactic.SplitIfs
import SlsLang.Proofs.FunctionSequence

namespace SlsLang

/-- The names that a report prints of a statement, apart from its values. -/
def Statement.words : Statement → List String
  | .declaration name type _ => [name.text, type.text]
  | .assignment target _ => [target.text]
  | .call _ callee _ => [callee]

def Construct.words : Construct → List String
  | .function name => [name.text]
  | .parameter type name => [type.text, name.text]
  | .body _ => []
  | .statement s => s.words

/-- A token that may be printed as a name is spelled on one line. -/
def Token.OneLine (t : Token) : Prop := t.isIdentifier = true → '\n' ∉ t.text.toList

section Statements

variable {run : List Token} {s : Statement}

theorem newline_notMem_calleePieces (h : ∀ t ∈ run, t.OneLine) (dotDue : Bool) :
    ∀ piece ∈ (calleePieces dotDue run).1, '\n' ∉ piece.toList := by
  induction run generalizing dotDue with
  | nil => simp [calleePieces]
  | cons t ts ih =>
    obtain ⟨ht, hts⟩ := List.forall_mem_cons.mp h
    rw [calleePieces]
    split
    next =>
      cases dotDue with
      | false => exact ih hts false
      | true => exact List.forall_mem_cons.mpr ⟨by decide, ih hts false⟩
    next =>
      cases hname : t.isIdentifier with
      | false => exact ih hts false
      | true => exact List.forall_mem_cons.mpr ⟨ht hname, ih hts true⟩

theorem newline_notMem_words_ofShape? (h : ∀ t ∈ run, t.OneLine)
    (hs : Statement.ofShape? run = some s) : ∀ word ∈ s.words, '\n' ∉ word.toList := by
  have hnames : ∀ var ∈ run, ∀ name ∈ run, ∀ colon ∈ run, ∀ type ∈ run,
      Statement.isDeclaration var name colon type = true →
        ∀ word ∈ [name.text, type.text], '\n' ∉ word.toList := by
    intro var _ name hname colon _ type htype hdecl
    simp only [Statement.isDeclaration, Bool.and_eq_true] at hdecl
    exact List.forall_mem_cons.mpr
      ⟨h name hname hdecl.1.1.2, List.forall_mem_singleton.mpr (h type htype hdecl.2)⟩
  unfold Statement.ofShape? at hs
  split at hs
  next target equals value =>
    split at hs
    next hc =>
      cases hs
      simp only [Bool.and_eq_true] at hc
      exact List.forall_mem_singleton.mpr (h target (by simp) hc.1.1)
    next => simp at hs
  next var name colon type =>
    split at hs
    next hc =>
      cases hs
      exact hnames var (by simp) name (by simp) colon (by simp) type (by simp) hc
    next => simp at hs
  next var name colon type equals value =>
    split at hs
    next hc =>
      cases hs
      simp only [Bool.and_eq_true] at hc
      exact hnames var (by simp) name (by simp) colon (by simp) type (by simp) hc.1.1
    next => simp at hs
  next => simp at hs

theorem newline_notMem_words (h : ∀ t ∈ run, t.OneLine)
    (hs : (classify run).statement? = some s) : ∀ word ∈ s.words, '\n' ∉ word.toList := by
  rcases classify_statement? hs with hs | ⟨last, hs⟩
  · exact newline_notMem_words_ofShape? h hs
  · obtain ⟨head, callee, opening, inside, hrun, rfl⟩ := classifyCall_statement? hs
    have hcallee : ∀ t ∈ head :: callee, t.OneLine := fun t ht =>
      h t (List.dropLast_subset run (hrun ▸ List.mem_append_left _ ht))
    have hpieces := newline_notMem_calleePieces hcallee false
    simpa [Statement.words, String.toList_join] using hpieces

end Statements

namespace Awaiting

/-- Whatever is kept of the tokens read is spelled on one line where it may come to be a name. -/
def OneLine : Awaiting → Prop
  | parameterName type => '\n' ∉ type.text.toList
  | statement run => ∀ t ∈ run, t.OneLine
  | _ => True

variable {a : Awaiting} {t : Token}

/-- One token leads from names of one line to names of one line, and so is what it completes. -/
structure StaysOneLine (r : Response) : Prop where
  words : ∀ c ∈ r.construct?, ∀ word ∈ c.words, '\n' ∉ word.toList
  next : r.next.OneLine

theorem stays_pass (h : a.OneLine) : StaysOneLine (.pass a) := ⟨by simp [Response.pass], h⟩

theorem stays_refuse (f : SyntaxFault) (h : a.OneLine) : StaysOneLine (.refuse t f a) :=
  ⟨by simp [Response.refuse], h⟩

theorem stays_accept {c : Construct} (hc : ∀ word ∈ c.words, '\n' ∉ word.toList)
    (h : a.OneLine) : StaysOneLine (.accept c a) := ⟨by simpa [Response.accept] using hc, h⟩

theorem stays_respondToType (ht : t.OneLine) : StaysOneLine (respondToType t) := by
  unfold respondToType
  split
  next hname => exact stays_pass (ht hname)
  next => exact stays_refuse _ trivial

theorem respondTo_oneLine (ha : a.OneLine) (ht : t.OneLine) : StaysOneLine (a.respondTo t) := by
  cases a with
  -- Where no name is taken up, nothing is kept either.
  | function | parameterList | nextParameter =>
    simp only [respondTo]
    split_ifs <;> first | exact stays_pass trivial | exact stays_refuse _ trivial
  | functionName =>
    simp only [respondTo]
    split_ifs with hname
    · exact stays_accept (List.forall_mem_singleton.mpr (ht hname)) trivial
    · exact stays_refuse _ trivial
  | firstParameter =>
    simp only [respondTo]
    split_ifs
    · exact stays_pass trivial
    · exact stays_refuse _ trivial
    · exact stays_respondToType ht
  | parameterType => exact stays_respondToType ht
  | parameterName type =>
    simp only [respondTo]
    split_ifs with hname
    · exact stays_accept
        (List.forall_mem_cons.mpr ⟨ha, List.forall_mem_singleton.mpr (ht hname)⟩) trivial
    · exact stays_refuse _ trivial
  | body listAccepted =>
    simp only [respondTo]
    split_ifs
    · exact stays_accept (by simp [Construct.words]) (by simp [OneLine])
    · exact stays_refuse _ trivial
    · exact stays_pass trivial
  | statement run =>
    simp only [respondTo]
    split_ifs
    · exact stays_pass trivial
    · exact stays_refuse _ trivial
    · refine ⟨fun c hc => ?_, by simp [OneLine]⟩
      obtain ⟨s, hs, rfl⟩ := Option.map_eq_some_iff.mp hc
      exact newline_notMem_words (fun u hu => ha u (List.mem_reverse.mp hu)) hs
    · exact stays_pass (List.forall_mem_cons.mpr ⟨ht, ha⟩)

theorem respond_oneLine (ha : a.OneLine) (ht : t.OneLine) : StaysOneLine (a.respond t) := by
  unfold respond
  split
  · exact stays_pass ha
  · exact respondTo_oneLine ha ht

/-- All names that are recognized in a row of tokens are of one line. -/
theorem newline_notMem_constructs {ts : List Token} (ha : a.OneLine) (hts : ∀ t ∈ ts, t.OneLine) :
    ∀ c ∈ a.constructs ts, ∀ word ∈ c.words, '\n' ∉ word.toList := by
  induction ts generalizing a with
  | nil => simp [constructs, responses_nil]
  | cons t ts ih =>
    obtain ⟨ht, hts⟩ := List.forall_mem_cons.mp hts
    obtain ⟨hwords, hnext⟩ := respond_oneLine ha ht
    rw [constructs_cons]
    refine List.forall_mem_append.mpr ⟨fun c hc => ?_, ih hnext hts⟩
    exact hwords c (Option.mem_toList.mp hc)

end Awaiting

end SlsLang
