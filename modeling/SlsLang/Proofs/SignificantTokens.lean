import SlsLang.Proofs.Blame

namespace SlsLang

def Fault.isLexical : Fault → Bool
  | .lexical _ => true
  | .syntactic _ => false

def Diagnostic.isLexical (d : Diagnostic) : Bool := d.fault.isLexical

/-- All that is wrong with the spelling of the tokens of a text. -/
def spellingFaults (file text : String) : List Diagnostic :=
  (Lexer.start file text).readings.flatMap Reading.diagnostics

/-- The tokens that recognition looks at. -/
def significant (ts : List Token) : List Token := ts.filter (!·.isComment)

theorem significant_append (ts us : List Token) :
    significant (ts ++ us) = significant ts ++ significant us :=
  List.filter_append ts us

theorem significant_cons_comment {t : Token} (h : t.isComment = true) (ts : List Token) :
    significant (t :: ts) = significant ts := by
  simp [significant, h]

theorem significant_cons {t : Token} (h : t.isComment = false) (ts : List Token) :
    significant (t :: ts) = t :: significant ts := by
  simp [significant, h]

theorem isLexical_of_mem_diagnostics {r : Reading} {d : Diagnostic} (h : d ∈ r.diagnostics) :
    d.isLexical = true := by
  obtain ⟨f, _, rfl⟩ := List.mem_map.mp h
  rfl

theorem isLexical_of_blames {ts : List Token} {ds : List Diagnostic} {d : Diagnostic}
    (h : Blames ts ds) (hd : d ∈ ds) : d.isLexical = false := by
  obtain ⟨t, _, f, rfl⟩ := h d hd
  rfl

namespace Awaiting

/-- What a row of tokens completes. -/
def constructs (a : Awaiting) (ts : List Token) : List Construct :=
  (a.responses ts).filterMap Response.construct?

/-- What is wrong with the order of a row of tokens. -/
def faults (a : Awaiting) (ts : List Token) : List Diagnostic :=
  (a.responses ts).flatMap Response.faults

theorem constructs_cons (a : Awaiting) (t : Token) (ts : List Token) :
    a.constructs (t :: ts) =
      (a.respond t).construct?.toList ++ (a.respond t).next.constructs ts := by
  rw [constructs, responses_cons, List.filterMap_cons]
  cases (a.respond t).construct? <;> rfl

theorem constructs_singleton (a : Awaiting) (t : Token) :
    a.constructs [t] = (a.respond t).construct?.toList := by
  rw [constructs_cons, constructs, responses_nil, List.filterMap_nil, List.append_nil]

theorem faults_cons (a : Awaiting) (t : Token) (ts : List Token) :
    a.faults (t :: ts) = (a.respond t).faults ++ (a.respond t).next.faults ts := by
  rw [faults, responses_cons, List.flatMap_cons, faults]

theorem respond_comment (a : Awaiting) {t : Token} (h : t.isComment = true) :
    a.respond t = .pass a := if_pos h

/-- What is due behind a row of tokens. -/
def after (a : Awaiting) (ts : List Token) : Awaiting :=
  ts.foldl (fun b t => (b.respond t).next) a

theorem after_nil (a : Awaiting) : a.after [] = a := rfl

theorem after_cons (a : Awaiting) (t : Token) (ts : List Token) :
    a.after (t :: ts) = (a.respond t).next.after ts := rfl

theorem after_append (a : Awaiting) (ts us : List Token) :
    a.after (ts ++ us) = (a.after ts).after us :=
  List.foldl_append

theorem faults_append (a : Awaiting) (ts us : List Token) :
    a.faults (ts ++ us) = a.faults ts ++ (a.after ts).faults us := by
  induction ts generalizing a with
  | nil => rfl
  | cons t ts ih =>
    rw [List.cons_append, faults_cons, faults_cons, ih, after_cons, List.append_assoc]

theorem constructs_append (a : Awaiting) (ts us : List Token) :
    a.constructs (ts ++ us) = a.constructs ts ++ (a.after ts).constructs us := by
  induction ts generalizing a with
  | nil => rfl
  | cons t ts ih =>
    rw [List.cons_append, constructs_cons, constructs_cons, ih, after_cons, List.append_assoc]

theorem faults_singleton (a : Awaiting) (t : Token) : a.faults [t] = (a.respond t).faults := by
  rw [faults_cons, faults, responses_nil, List.flatMap_nil, List.append_nil]

theorem after_significant (a : Awaiting) (ts : List Token) :
    a.after (significant ts) = a.after ts := by
  induction ts generalizing a with
  | nil => rfl
  | cons t ts ih =>
    cases hc : t.isComment with
    | true =>
      rw [significant_cons_comment hc, after_cons, a.respond_comment hc]
      exact ih a
    | false =>
      rw [significant_cons hc, after_cons, after_cons]
      exact ih _

/-- A comment completes nothing, is not at fault, and leaves what is due as it was. -/
theorem constructs_faults_significant (a : Awaiting) (ts : List Token) :
    a.constructs (significant ts) = a.constructs ts ∧ a.faults (significant ts) = a.faults ts := by
  induction ts generalizing a with
  | nil => exact ⟨rfl, rfl⟩
  | cons t ts ih =>
    cases hc : t.isComment with
    | true =>
      rw [significant_cons_comment hc, constructs_cons, faults_cons, a.respond_comment hc]
      exact ih a
    | false =>
      obtain ⟨hconstructs, hfaults⟩ := ih (a.respond t).next
      rw [significant_cons hc, constructs_cons, constructs_cons, faults_cons, faults_cons,
        hconstructs, hfaults]
      exact ⟨rfl, rfl⟩

theorem eq_of_significant_eq (a : Awaiting) {ts us : List Token}
    (h : significant ts = significant us) :
    a.constructs ts = a.constructs us ∧ a.faults ts = a.faults us := by
  obtain ⟨hconstructs, hfaults⟩ := a.constructs_faults_significant ts
  obtain ⟨hconstructs', hfaults'⟩ := a.constructs_faults_significant us
  rw [← hconstructs, ← hfaults, ← hconstructs', ← hfaults', h]
  exact ⟨rfl, rfl⟩

end Awaiting

/-- What is found wrong with the tokens of some readings, each token's spelling first. -/
def blamed (a : Awaiting) (rs : List Reading) : List Diagnostic :=
  (rs.zipWith (fun reading response => reading.diagnostics ++ response.faults)
    (a.responses (rs.map Reading.token))).flatten

theorem blamed_cons (a : Awaiting) (r : Reading) (rs : List Reading) :
    blamed a (r :: rs) =
      r.diagnostics ++ (a.respond r.token).faults ++ blamed (a.respond r.token).next rs := by
  rw [blamed, List.map_cons, Awaiting.responses_cons, List.zipWith_cons_cons, List.flatten_cons,
    blamed]

theorem blamed_singleton (a : Awaiting) (r : Reading) :
    blamed a [r] = r.diagnostics ++ (a.respond r.token).faults := by
  rw [blamed_cons, blamed, List.zipWith_nil_left, List.flatten_nil, List.append_nil]

theorem blamed_append (a : Awaiting) (rs more : List Reading) :
    blamed a (rs ++ more) = blamed a rs ++ blamed (a.after (rs.map Reading.token)) more := by
  induction rs generalizing a with
  | nil => rfl
  | cons r rs ih =>
    rw [List.cons_append, blamed_cons, blamed_cons, ih, List.map_cons, Awaiting.after_cons,
      ← List.append_assoc]

/-- The two kinds of diagnostics can be told apart, and each kind comes in the order of the tokens. -/
theorem filter_blamed (a : Awaiting) (rs : List Reading) :
    (blamed a rs).filter Diagnostic.isLexical = rs.flatMap Reading.diagnostics ∧
      (blamed a rs).filter (!·.isLexical) = a.faults (rs.map Reading.token) := by
  induction rs generalizing a with
  | nil => exact ⟨rfl, rfl⟩
  | cons r rs ih =>
    obtain ⟨hlexical, hsyntactic⟩ := ih (a.respond r.token).next
    have hspelling : ∀ d ∈ r.diagnostics, d.isLexical = true := fun d =>
      isLexical_of_mem_diagnostics
    have horder : ∀ d ∈ (a.respond r.token).faults, d.isLexical = false := fun d =>
      isLexical_of_blames (a.respond_answers r.token).blames
    have hkept := List.filter_eq_self.mpr hspelling
    have hpassed : (a.respond r.token).faults.filter Diagnostic.isLexical = [] :=
      List.filter_eq_nil_iff.mpr fun d hd => by simp [horder d hd]
    have hkept' : (a.respond r.token).faults.filter (!·.isLexical) = (a.respond r.token).faults :=
      List.filter_eq_self.mpr fun d hd => by simp [horder d hd]
    have hpassed' : r.diagnostics.filter (!·.isLexical) = [] :=
      List.filter_eq_nil_iff.mpr fun d hd => by simp [hspelling d hd]
    rw [blamed_cons, List.map_cons, Awaiting.faults_cons, List.flatMap_cons]
    simp only [List.filter_append, hkept, hkept', hpassed, hpassed', hlexical, hsyntactic,
      List.append_nil, List.nil_append, and_self]

end SlsLang
