import SlsLang.Recognizer

namespace SlsLang

/-- A token at another place. What is recognized hangs on the kinds and the texts of tokens alone, so
that constructs and faults move the same way. -/
def Token.relocate (g : Place → Place) (t : Token) : Token := { t with place := g t.place }

def Diagnostic.relocate (g : Place → Place) (d : Diagnostic) : Diagnostic :=
  { d with place := g d.place }

def Statement.relocate (g : Place → Place) : Statement → Statement
  | .declaration name type init? =>
    .declaration (name.relocate g) (type.relocate g) (init?.map (Token.relocate g))
  | .assignment target value => .assignment (target.relocate g) (value.relocate g)
  | .call head callee arguments =>
    .call (head.relocate g) callee (arguments.map (Token.relocate g))

def Classified.relocate (g : Place → Place) (c : Classified) : Classified :=
  ⟨c.statement?.map (Statement.relocate g), c.faults.map (Diagnostic.relocate g)⟩

def Construct.relocate (g : Place → Place) : Construct → Construct
  | .function name => .function (name.relocate g)
  | .parameter type name => .parameter (type.relocate g) (name.relocate g)
  | .body brace => .body (brace.relocate g)
  | .statement s => .statement (s.relocate g)

def Awaiting.relocate (g : Place → Place) : Awaiting → Awaiting
  | .parameterName type => .parameterName (type.relocate g)
  | .statement run => .statement (run.map (Token.relocate g))
  | .body listAccepted => .body listAccepted
  | a => a

def Response.relocate (g : Place → Place) (r : Response) : Response :=
  ⟨r.next.relocate g, r.construct?.map (Construct.relocate g),
    r.faults.map (Diagnostic.relocate g)⟩

theorem declared?_relocate (g : Place → Place) (c : Construct) :
    (c.relocate g).declared? = c.declared? := by
  cases c with
  | statement s => cases s <;> rfl
  | _ => rfl

section Predicates

variable (g : Place → Place) (t : Token)

@[simp]
theorem kind_relocate : (t.relocate g).kind = t.kind := rfl

@[simp]
theorem text_relocate : (t.relocate g).text = t.text := rfl

@[simp]
theorem isPunctuation_relocate (text : String) :
    (t.relocate g).isPunctuation text = t.isPunctuation text := rfl

@[simp]
theorem isOperator_relocate (text : String) :
    (t.relocate g).isOperator text = t.isOperator text := rfl

@[simp]
theorem isIdentifier_relocate : (t.relocate g).isIdentifier = t.isIdentifier := rfl

@[simp]
theorem isValue_relocate : (t.relocate g).isValue = t.isValue := rfl

@[simp]
theorem blame_relocate (fault : SyntaxFault) :
    (t.relocate g).blame fault = (t.blame fault).relocate g := rfl

end Predicates

section Statements

variable (g : Place → Place)

theorem isDeclaration_relocate (var name colon type : Token) :
    Statement.isDeclaration (var.relocate g) (name.relocate g) (colon.relocate g)
      (type.relocate g) = Statement.isDeclaration var name colon type := rfl

theorem ofShape?_relocate (run : List Token) :
    Statement.ofShape? (run.map (Token.relocate g)) =
      (Statement.ofShape? run).map (Statement.relocate g) := by
  match run with
  | [] | [_] | [_, _] | [_, _, _, _, _] | _ :: _ :: _ :: _ :: _ :: _ :: _ :: _ => rfl
  | [target, equals, value] =>
    simp only [List.map_cons, List.map_nil, Statement.ofShape?, isIdentifier_relocate,
      isOperator_relocate, isValue_relocate]
    rw [apply_ite (Option.map (Statement.relocate g))]
    rfl
  | [var, name, colon, type] =>
    simp only [List.map_cons, List.map_nil, Statement.ofShape?, isDeclaration_relocate]
    rw [apply_ite (Option.map (Statement.relocate g))]
    rfl
  | [var, name, colon, type, equals, value] =>
    simp only [List.map_cons, List.map_nil, Statement.ofShape?, isDeclaration_relocate,
      isOperator_relocate, isValue_relocate]
    rw [apply_ite (Option.map (Statement.relocate g))]
    rfl

theorem calleePieces_relocate (dotDue : Bool) (ts : List Token) :
    calleePieces dotDue (ts.map (Token.relocate g)) =
      ((calleePieces dotDue ts).1, (calleePieces dotDue ts).2.map (Diagnostic.relocate g)) := by
  induction ts generalizing dotDue with
  | nil => rfl
  | cons t ts ih =>
    simp only [List.map_cons, calleePieces, isPunctuation_relocate, isIdentifier_relocate, ih,
      blame_relocate]
    by_cases hp : t.isPunctuation "." = true
    · cases dotDue <;> simp [hp]
    · cases dotDue <;> simp [hp]

theorem callArguments_relocate (ts : List Token) :
    callArguments (ts.map (Token.relocate g)) =
      ((callArguments ts).1.map (Token.relocate g),
        (callArguments ts).2.map (Diagnostic.relocate g)) := by
  have hvalue : ∀ t : Token, (if t.isValue = true then [t.relocate g] else []) =
      (if t.isValue = true then [t] else []).map (Token.relocate g) := by
    intro t
    split <;> rfl
  fun_induction callArguments ts with
  | case1 => rfl
  | case2 t =>
    simp only [List.map_cons, List.map_nil, callArguments, isValue_relocate, Prod.mk.injEq, and_true]
    exact hvalue t
  | case3 t comma ts value hc values faults heq ih =>
    rw [heq] at ih
    simp only [List.map_cons, callArguments, isPunctuation_relocate, if_pos hc, ih,
      isValue_relocate, List.map_append, Prod.mk.injEq, and_true, List.append_cancel_right_eq]
    exact hvalue t
  | case4 t comma ts value hc =>
    simp only [List.map_cons, callArguments, isPunctuation_relocate, Bool.eq_false_iff.mpr hc,
      Bool.false_eq_true, if_false, isValue_relocate, blame_relocate, List.map_nil, Prod.mk.injEq,
      and_true]
    exact hvalue t

theorem classifyCall_relocate (run : List Token) (last : Token) :
    classifyCall (run.map (Token.relocate g)) (last.relocate g) =
      (classifyCall run last).relocate g := by
  have htake : (run.map (Token.relocate g)).takeWhile (!·.isPunctuation "(") =
      (run.takeWhile (!·.isPunctuation "(")).map (Token.relocate g) := List.takeWhile_map ..
  have hcount : ∀ text, (run.map (Token.relocate g)).countP (·.isPunctuation text) =
      run.countP (·.isPunctuation text) := fun text => List.countP_map
  simp only [classifyCall, htake, hcount, calleePieces_relocate, List.length_map,
    ← List.map_drop]
  cases run.drop (run.takeWhile (!·.isPunctuation "(")).length with
  | nil => simp [Classified.relocate]
  | cons t inside =>
    cases run.takeWhile (!·.isPunctuation "(") with
    | nil => rfl
    | cons head callee =>
      simp only [List.map_cons, callArguments_relocate]
      split <;> simp [Classified.relocate, Statement.relocate]

theorem classify_relocate (run : List Token) :
    classify (run.map (Token.relocate g)) = (classify run).relocate g := by
  match run with
  | [] => rfl
  | [t] => rfl
  | t :: u :: run =>
    have hmap : (t :: u :: run).map (Token.relocate g) =
        t.relocate g :: u.relocate g :: run.map (Token.relocate g) := rfl
    rw [hmap, classify, classify, ← hmap, ofShape?_relocate]
    · cases Statement.ofShape? (t :: u :: run) with
      | some statement => rfl
      | none =>
        rw [List.getLast?_map, ← List.map_dropLast]
        cases (t :: u :: run).getLast? with
        | none => rfl
        | some last =>
          simp only [Option.map_none, Option.map_some, isPunctuation_relocate]
          by_cases hp : last.isPunctuation ")" = true
          · simp only [if_pos hp, classifyCall_relocate]
          · simp only [Bool.eq_false_iff.mpr hp, Bool.false_eq_true, if_false]
            rfl
    all_goals simp

end Statements

namespace Awaiting

variable (g : Place → Place)

theorem respondToType_relocate (t : Token) :
    respondToType (t.relocate g) = (respondToType t).relocate g := by
  simp only [respondToType, apply_ite (Response.relocate g)]
  rfl

theorem respondTo_relocate (a : Awaiting) (t : Token) :
    (a.relocate g).respondTo (t.relocate g) = (a.respondTo t).relocate g := by
  cases a with
  | function | functionName | parameterList | parameterName =>
    simp only [Awaiting.relocate, respondTo, apply_ite (Response.relocate g)]
    rfl
  | firstParameter | nextParameter =>
    simp only [Awaiting.relocate, respondTo, respondToType_relocate, apply_ite (Response.relocate g)]
    rfl
  | parameterType => exact respondToType_relocate g t
  | body listAccepted =>
    simp only [Awaiting.relocate, respondTo, apply_ite (Response.relocate g)]
    rfl
  | statement run =>
    have hempty : (run.map (Token.relocate g)).isEmpty = run.isEmpty := List.isEmpty_map
    have hstatement : ∀ c : Classified,
        (c.statement?.map (Statement.relocate g)).map Construct.statement =
          (c.statement?.map Construct.statement).map (Construct.relocate g) := by
      intro c
      cases c.statement? <;> rfl
    simp only [Awaiting.relocate, respondTo, hempty, ← List.map_reverse, classify_relocate,
      Classified.relocate, hstatement, apply_ite (Response.relocate g)]
    rfl

theorem respond_relocate (a : Awaiting) (t : Token) :
    (a.relocate g).respond (t.relocate g) = (a.respond t).relocate g := by
  simp only [respond, respondTo_relocate, apply_ite (Response.relocate g)]
  rfl

theorem responses_relocate (a : Awaiting) (ts : List Token) :
    (a.relocate g).responses (ts.map (Token.relocate g)) =
      (a.responses ts).map (Response.relocate g) := by
  induction ts generalizing a with
  | nil => rfl
  | cons t ts ih =>
    rw [List.map_cons, responses_cons, responses_cons, List.map_cons, respond_relocate, ← ih]
    rfl

end Awaiting

end SlsLang
