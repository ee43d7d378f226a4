import SlsLang.Proofs.AcceptedStatements
import SlsLang.Proofs.Acceptance
import SlsLang.Proofs.ProgramForm

namespace SlsLang

def Lexeme.token (here : Place) (l : Lexeme) : Token := ⟨l.kind, l.text, here⟩

theorem Token.inner_of_isValue {t : Token} (h : t.isValue = true) : t.Inner := by
  have hk : t.kind ≠ .comment ∧ t.kind ≠ .endOfFile := by
    constructor
    all_goals
      intro hp
      simp [isValue, hp, TokenKind.isConstant] at h
  refine ⟨?_, ?_, not_isPunctuation_of_isValue h _, not_isPunctuation_of_isValue h _⟩
  · simp [isComment, hk.1]
  · simp [isEndOfFile, hk.2]

theorem Token.inner_of_isPunctuation {t : Token} {text : String} (h : t.isPunctuation text = true)
    (hs : text ≠ ";") (hb : text ≠ "\x7d") : t.Inner := by
  have hk := (kind_of_isPunctuation h).1
  exact ⟨by simp [isComment, hk], by simp [isEndOfFile, hk], not_isPunctuation_of_ne h hs,
    not_isPunctuation_of_ne h hb⟩

theorem Token.inner_of_kind {t : Token} (h : t.kind = .keyword ∨ t.kind = .operator) : t.Inner := by
  rcases h with hk | hk <;>
    exact ⟨by simp [isComment, hk], by simp [isEndOfFile, hk], by simp [isPunctuation, hk],
      by simp [isPunctuation, hk]⟩

theorem Separated.inner {item : Token → Bool} {mark : String} {ts items : List Token}
    (h : Separated item mark ts items) (hitem : ∀ t, item t = true → t.isValue = true)
    (hs : mark ≠ ";") (hb : mark ≠ "\x7d") : ∀ t ∈ ts, t.Inner := by
  intro t ht
  rcases h.item_or_mark t ht with hi | hm
  · exact Token.inner_of_isValue (hitem t hi)
  · exact Token.inner_of_isPunctuation hm hs hb

/-- Recognition takes every token of a statement into it, up to the semicolon. -/
theorem Spells.inner {run : List Token} {s : Statement} (h : Spells run s) :
    ∀ t ∈ run, t.Inner := by
  have hname : ∀ {t : Token}, t.isIdentifier = true → t.Inner := fun ht =>
    Token.inner_of_isValue (Token.isValue_of_isIdentifier ht)
  have hequals : ∀ {t : Token}, t.isOperator "=" = true → t.Inner := by
    intro t ht
    simp only [Token.isOperator, Bool.and_eq_true, beq_iff_eq] at ht
    exact Token.inner_of_kind (.inr ht.1)
  have hvar : ∀ {t : Token}, t.isKeyword "var" = true → t.Inner := by
    intro t ht
    simp only [Token.isKeyword, Bool.and_eq_true, beq_iff_eq] at ht
    exact Token.inner_of_kind (.inl ht.1)
  cases h with
  | declaration isVar isName isColon isType =>
    have hcolon := Token.inner_of_isPunctuation isColon (by decide) (by decide)
    simp [hvar isVar, hname isName, hcolon, hname isType]
  | initialized isVar isName isColon isType isEquals isValue =>
    have hcolon := Token.inner_of_isPunctuation isColon (by decide) (by decide)
    simp [hvar isVar, hname isName, hcolon, hname isType, hequals isEquals,
      Token.inner_of_isValue isValue]
  | assignment isTarget isEquals isValue =>
    simp [hname isTarget, hequals isEquals, Token.inner_of_isValue isValue]
  | @call callee names inside arguments head opening closing isCallee isOpening isInside isClosing =>
    have hcallee := isCallee.inner (fun _ => Token.isValue_of_isIdentifier) (by decide) (by decide)
    have hinside : ∀ t ∈ inside, t.Inner := by
      rcases isInside with ⟨rfl, -⟩ | hvalues
      · simp
      · exact hvalues.inner (fun _ ht => ht) (by decide) (by decide)
    have hopening := Token.inner_of_isPunctuation isOpening (by decide) (by decide)
    have hclosing := Token.inner_of_isPunctuation isClosing (by decide) (by decide)
    rw [List.forall_mem_append, List.forall_mem_cons, List.forall_mem_append,
      List.forall_mem_singleton]
    exact ⟨hcallee, hopening, hinside, hclosing⟩

section Forms

variable (here : Place)

def pathTokens (path : List NameForm) : List Token :=
  path.flatMap fun n => [(markLexeme '.').token here, n.lexeme.token here]

def calleeTokens (head : NameForm) (path : List NameForm) : List Token :=
  head.lexeme.token here :: pathTokens here path

def argumentTokens : List ValueForm → List Token
  | [] => []
  | v :: vs =>
    v.lexeme.token here :: vs.flatMap fun v => [(markLexeme ',').token here, v.lexeme.token here]

theorem isValue_value (v : ValueForm) : (v.lexeme.token here).isValue = true := by
  cases v with
  | name n => rfl
  | literal l => simp [ValueForm.lexeme, LiteralForm.lexeme, Lexeme.token, Token.isValue, l.constant]

theorem separated_calleeTokens (head : NameForm) (path : List NameForm) :
    Separated Token.isIdentifier "." (calleeTokens here head path)
      ((head :: path).map (·.lexeme.token here)) := by
  induction path generalizing head with
  | nil => exact .one rfl
  | cons n path ih => exact .more rfl rfl (ih n)

theorem separated_argumentTokens (v : ValueForm) (vs : List ValueForm) :
    Separated Token.isValue "," (argumentTokens here (v :: vs))
      ((v :: vs).map (·.lexeme.token here)) := by
  induction vs generalizing v with
  | nil => exact .one (isValue_value here v)
  | cons w vs ih => exact .more (isValue_value here v) rfl (ih w)

def StatementForm.statement : StatementForm → Statement
  | declaration name type init? =>
    .declaration (name.lexeme.token here) (type.lexeme.token here)
      (init?.map (·.lexeme.token here))
  | assignment target value => .assignment (target.lexeme.token here) (value.lexeme.token here)
  | call head path arguments =>
    .call (head.lexeme.token here) (dottedName head path) (arguments.map (·.lexeme.token here))

theorem map_token_call (head : NameForm) (path : List NameForm) (vs : List ValueForm) :
    (StatementForm.call head path vs).lexemes.map (Lexeme.token here) =
      calleeTokens here head path ++ ((markLexeme '(').token here ::
        (argumentTokens here vs ++ [(markLexeme ')').token here])) := by
  cases vs <;> simp [StatementForm.lexemes, separated, calleeTokens, pathTokens, argumentTokens,
    List.map_flatMap, List.flatMap_map]

/-- What is written for a statement is a run of tokens that spells it. -/
theorem spells_statement (s : StatementForm) :
    Spells (s.lexemes.map (Lexeme.token here)) (s.statement here) := by
  cases s with
  | declaration name type init? =>
    cases init? with
    | none => exact .declaration rfl rfl rfl rfl
    | some value => exact .initialized rfl rfl rfl rfl rfl (isValue_value here value)
  | assignment target value => exact .assignment rfl rfl (isValue_value here value)
  | call head path vs =>
    have hname : dottedName head path =
        ".".intercalate (((head :: path).map (·.lexeme.token here)).map Token.text) := by
      rw [List.map_map]
      rfl
    have hvalues : argumentTokens here vs = [] ∧ vs.map (·.lexeme.token here) = [] ∨
        Separated Token.isValue "," (argumentTokens here vs) (vs.map (·.lexeme.token here)) := by
      cases vs with
      | nil => exact .inl ⟨rfl, rfl⟩
      | cons v vs => exact .inr (separated_argumentTokens here v vs)
    rw [map_token_call, StatementForm.statement, hname]
    exact .call (separated_calleeTokens here head path) rfl hvalues rfl

end Forms

end SlsLang
