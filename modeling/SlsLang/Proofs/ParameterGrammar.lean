import SlsLang.Proofs.SignificantTokens
import SlsLang.Proofs.StatementGrammar

namespace SlsLang

/-- Pairs of a type and a name with a comma between any two pairs, up to the parenthesis that closes
them. -/
inductive ClosedPairs : List Token → List (Token × Token) → Prop
  | last {type name closing : Token} (isType : type.isIdentifier = true)
    (isName : name.isIdentifier = true) (isClosing : closing.isPunctuation ")" = true) :
    ClosedPairs [type, name, closing] [(type, name)]
  | more {type name comma : Token} {ts : List Token} {ps : List (Token × Token)}
    (isType : type.isIdentifier = true) (isName : name.isIdentifier = true)
    (isComma : comma.isPunctuation "," = true) (rest : ClosedPairs ts ps) :
    ClosedPairs (type :: name :: comma :: ts) ((type, name) :: ps)

/-- A parameter list from parenthesis to parenthesis, and its pairs. -/
inductive ParameterList : List Token → List (Token × Token) → Prop
  | empty {opening closing : Token} (isOpening : opening.isPunctuation "(" = true)
    (isClosing : closing.isPunctuation ")" = true) : ParameterList [opening, closing] []
  | pairs {opening : Token} {ts : List Token} {ps : List (Token × Token)}
    (isOpening : opening.isPunctuation "(" = true) (rest : ClosedPairs ts ps) :
    ParameterList (opening :: ts) ps

/-- A parameter list starts with these tokens and goes on behind them. -/
def OpenList (ts : List Token) : Prop := ∃ t more ps, ParameterList (ts ++ t :: more) ps

/-- The last of the tokens is the first that no parameter list can have there. -/
def BrokenList (ts : List Token) : Prop :=
  ∃ init t, ts = init ++ [t] ∧ OpenList init ∧ ¬ OpenList ts ∧ ∀ ps, ¬ ParameterList ts ps

/-- A token that is neither a comment nor the end of the text. -/
structure Token.Ordinary (t : Token) : Prop where
  comment : t.isComment = false
  endOfFile : t.isEndOfFile = false

theorem ordinary_significant {ts : List Token} (h : ∀ t ∈ ts, t.isEndOfFile = false) :
    ∀ t ∈ significant ts, t.Ordinary := by
  intro t ht
  obtain ⟨hmem, hcomment⟩ := List.mem_filter.mp ht
  exact ⟨by simpa using hcomment, h t hmem⟩

namespace Awaiting

theorem respond_of_not_comment {t : Token} (h : t.isComment = false) (a : Awaiting) :
    a.respond t = a.respondTo t :=
  if_neg (by simp [h])

theorem respond_ordinary {t : Token} (h : t.Ordinary) (a : Awaiting) :
    a.respond t = a.respondTo t :=
  respond_of_not_comment h.comment a

/-- A parameter list has begun, and is neither closed nor broken off. -/
def InList : Awaiting → Prop
  | parameterList | firstParameter | nextParameter | parameterType | parameterName _ => True
  | _ => False

/-- Behind a pair the list is closed, or it goes on with a comma and more pairs. -/
def ClosesPair (ts : List Token) : Prop :=
  (∃ t, ts = [t] ∧ t.isPunctuation ")" = true) ∨
    ∃ t us ps, ts = t :: us ∧ t.isPunctuation "," = true ∧ ClosedPairs us ps

/-- The tokens take a parameter list from here to its end. -/
def Closes : Awaiting → List Token → Prop
  | parameterList, ts => ∃ ps, ParameterList ts ps
  | firstParameter, ts => (∃ t, ts = [t] ∧ t.isPunctuation ")" = true) ∨ ∃ ps, ClosedPairs ts ps
  | nextParameter, ts => ClosesPair ts
  | parameterType, ts => ∃ ps, ClosedPairs ts ps
  | parameterName _, ts => ∃ t us, ts = t :: us ∧ t.isIdentifier = true ∧ ClosesPair us
  | body true, ts => ts = []
  | _, _ => False

theorem closedPairs_cons {t : Token} {ts : List Token} : (∃ ps, ClosedPairs (t :: ts) ps) ↔
    t.isIdentifier = true ∧ ∃ name us, ts = name :: us ∧ name.isIdentifier = true ∧
      ClosesPair us := by
  constructor
  · rintro ⟨ps, h⟩
    cases h with
    | last isType isName isClosing => exact ⟨isType, _, _, rfl, isName, .inl ⟨_, rfl, isClosing⟩⟩
    | more isType isName isComma rest =>
      exact ⟨isType, _, _, rfl, isName, .inr ⟨_, _, _, rfl, isComma, rest⟩⟩
  · rintro ⟨isType, name, us, rfl, isName,
      ⟨closing, rfl, isClosing⟩ | ⟨comma, vs, ps, rfl, isComma, rest⟩⟩
    · exact ⟨_, .last isType isName isClosing⟩
    · exact ⟨_, .more isType isName isComma rest⟩

theorem closes_cons {a : Awaiting} (ha : a.InList) {t : Token} (ht : t.isComment = false)
    (ts : List Token) : a.Closes (t :: ts) ↔ (a.respond t).next.Closes ts := by
  have hend : t.isEndOfFile = true → t.isIdentifier = false ∧ t.isPunctuation "," = false := by
    simp +contextual [Token.isEndOfFile, Token.isIdentifier, Token.isPunctuation]
  have hcomma : t.isPunctuation ")" = true → t.isPunctuation "," = false :=
    fun h => Token.not_isPunctuation_of_ne h (by decide)
  have hname : ∀ text, t.isPunctuation text = true → t.isIdentifier = false :=
    fun _ => Token.not_isIdentifier_of_isPunctuation
  rw [respond_of_not_comment ht]
  cases a with
  | parameterList =>
    cases ho : t.isPunctuation "(" with
    | true =>
      simp only [respondTo, ho, if_true, Response.pass, Closes]
      constructor
      · rintro ⟨ps, h⟩
        cases h with
        | empty _ isClosing => exact .inl ⟨_, rfl, isClosing⟩
        | pairs _ rest => exact .inr ⟨_, rest⟩
      · rintro (⟨closing, rfl, isClosing⟩ | ⟨ps, rest⟩)
        · exact ⟨_, .empty ho isClosing⟩
        · exact ⟨_, .pairs ho rest⟩
    | false =>
      simp only [respondTo, ho, Response.refuse, Closes, Bool.false_eq_true, if_false]
      refine iff_of_false ?_ id
      rintro ⟨ps, h⟩
      cases h <;> simp_all
  | firstParameter =>
    simp only [Closes, closedPairs_cons]
    cases hc : t.isPunctuation ")" with
    | true => simp [respondTo, hc, hname _ hc, Response.pass]
    | false =>
      cases hi : t.isIdentifier <;> cases he : t.isEndOfFile <;>
        simp_all [respondTo, respondToType, Response.pass, Response.refuse]
  | nextParameter =>
    cases hc : t.isPunctuation ")" with
    | true => simp [respondTo, hc, hcomma hc, Response.pass, Closes, ClosesPair]
    | false =>
      cases hm : t.isPunctuation "," <;> cases he : t.isEndOfFile <;>
        simp_all [respondTo, Response.pass, Response.refuse, Closes, ClosesPair]
  | parameterType =>
    simp only [Closes, closedPairs_cons]
    cases hi : t.isIdentifier <;>
      simp [respondTo, respondToType, hi, Response.pass, Response.refuse]
  | parameterName type =>
    cases hi : t.isIdentifier <;>
      simp [respondTo, hi, Response.accept, Response.refuse, Closes]
  | function | functionName | body | statement => exact ha.elim

theorem closes_nil_iff (a : Awaiting) : a.Closes [] ↔ a = .body true := by
  have hpairs : ∀ ps, ¬ ClosedPairs [] ps := by
    rintro ps ⟨⟩
  have hlist : ∀ ps, ¬ ParameterList [] ps := by
    rintro ps ⟨⟩
  cases a with
  | body listAccepted => cases listAccepted <;> simp [Closes]
  | function | functionName | parameterList | firstParameter | nextParameter | parameterType
  | parameterName | statement => simp [Closes, ClosesPair, hpairs, hlist]

/-- As long as tokens are missing before the list closes, it is not closed. -/
theorem inList_of_closes {a : Awaiting} {t : Token} {ts : List Token} (h : a.Closes (t :: ts)) :
    a.InList := by
  cases a with
  | body listAccepted => cases listAccepted <;> simp [Closes] at h
  | function | functionName | statement => exact h
  | parameterList | firstParameter | nextParameter | parameterType | parameterName => trivial

theorem exists_closes {a : Awaiting} (ha : a.InList) : ∃ t ts, a.Closes (t :: ts) := by
  have hmark : ∀ text, ∃ t : Token, t.isPunctuation text = true := fun text =>
    ⟨⟨.punctuation, text, "", 1, 1, ""⟩, by simp [Token.isPunctuation]⟩
  obtain ⟨name, hname⟩ : ∃ t : Token, t.isIdentifier = true :=
    ⟨⟨.identifier, "", "", 1, 1, ""⟩, rfl⟩
  obtain ⟨opening, ho⟩ := hmark "("
  obtain ⟨closing, hc⟩ := hmark ")"
  cases a with
  | parameterList => exact ⟨_, _, _, .empty ho hc⟩
  | firstParameter => exact ⟨_, _, .inl ⟨_, rfl, hc⟩⟩
  | nextParameter => exact ⟨_, _, .inl ⟨_, rfl, hc⟩⟩
  | parameterType => exact ⟨_, _, _, .last hname hname hc⟩
  | parameterName => exact ⟨_, _, _, _, rfl, hname, .inl ⟨_, rfl, hc⟩⟩
  | function | functionName | body | statement => exact ha.elim

/-- What the answer to a token can be where a list is under way: the token is passed over, or it
completes a pair, or the list is over with it, closed or broken off. -/
inductive ListAnswer (a : Awaiting) (t : Token) : Response → Prop
  | pass {next : Awaiting} (goesOn : next.InList) : ListAnswer a t (.pass next)
  | pair {type : Token} (due : a = parameterName type) :
    ListAnswer a t (.accept (.parameter type t) .nextParameter)
  | close : ListAnswer a t (.pass (.body true))
  | breakOff (fault : SyntaxFault) : ListAnswer a t (.refuse t fault (.body false))

section Answers

variable {a : Awaiting} {t : Token} (ha : a.InList) (ht : t.isComment = false)

include ha ht

theorem listAnswer_respond : ListAnswer a t (a.respond t) := by
  rw [respond_of_not_comment ht]
  cases a with
  | parameterList =>
    rw [respondTo]
    split
    · exact .pass trivial
    · exact .breakOff _
  | firstParameter =>
    rw [respondTo, respondToType]
    split
    · exact .close
    split
    · exact .breakOff _
    split
    · exact .pass trivial
    · exact .breakOff _
  | nextParameter =>
    rw [respondTo]
    split
    · exact .close
    split
    · exact .breakOff _
    split
    · exact .pass trivial
    · exact .breakOff _
  | parameterType =>
    rw [respondTo, respondToType]
    split
    · exact .pass trivial
    · exact .breakOff _
  | parameterName type =>
    rw [respondTo]
    split
    · exact .pair rfl
    · exact .breakOff _
  | function | functionName | body | statement => exact ha.elim

/-- A list goes on, or it is over. -/
theorem next_of_listAnswer : (a.respond t).next.InList ∨
    ∃ accepted, (a.respond t).next = .body accepted := by
  generalize hr : a.respond t = r
  cases hr ▸ listAnswer_respond ha ht with
  | pass goesOn => exact .inl goesOn
  | pair => exact .inl trivial
  | close => exact .inr ⟨true, rfl⟩
  | breakOff => exact .inr ⟨false, rfl⟩

end Answers

/-- A list is under way, and still is behind each part of the tokens and behind all of them. -/
def StaysInList (a : Awaiting) (ts : List Token) : Prop :=
  ∀ init, init <+: ts → (a.after init).InList

theorem staysInList_nil {a : Awaiting} : a.StaysInList [] ↔ a.InList := by
  simp [StaysInList, after_nil]

theorem staysInList_cons {a : Awaiting} {t : Token} {ts : List Token} :
    a.StaysInList (t :: ts) ↔ a.InList ∧ (a.respond t).next.StaysInList ts := by
  constructor
  · intro h
    exact ⟨h [] List.nil_prefix,
      fun init hinit => h (t :: init) ((List.prefix_cons_inj t).mpr hinit)⟩
  · rintro ⟨ha, h⟩ init hinit
    rcases List.prefix_cons_iff.mp hinit with rfl | ⟨rest, rfl, hrest⟩
    · exact ha
    · exact h rest hrest

theorem StaysInList.inList_after {a : Awaiting} {ts : List Token} (h : a.StaysInList ts) :
    (a.after ts).InList := h ts (List.prefix_refl ts)

variable {a : Awaiting} {ts : List Token}

theorem closes_after (hts : ∀ t ∈ ts, t.Ordinary) {us : List Token} (h : a.Closes (ts ++ us)) :
    (a.after ts).Closes us := by
  induction ts generalizing a with
  | nil => exact h
  | cons t ts ih =>
    obtain ⟨ht, hrest⟩ := List.forall_mem_cons.mp hts
    exact ih hrest ((closes_cons (inList_of_closes h) ht.comment _).mp h)

section StaysInList

variable (hts : ∀ t ∈ ts, t.isComment = false)

include hts

theorem StaysInList.closes_append (h : a.StaysInList ts) (us : List Token) :
    a.Closes (ts ++ us) ↔ (a.after ts).Closes us := by
  induction ts generalizing a with
  | nil => rfl
  | cons t ts ih =>
    obtain ⟨ht, hrest⟩ := List.forall_mem_cons.mp hts
    obtain ⟨ha, hstays⟩ := staysInList_cons.mp h
    rw [List.cons_append, closes_cons ha ht, after_cons]
    exact ih hrest hstays

theorem staysInList_of_closes {t : Token} {more : List Token} (h : a.Closes (ts ++ t :: more)) :
    a.StaysInList ts := by
  induction ts generalizing a with
  | nil => exact staysInList_nil.mpr (inList_of_closes h)
  | cons u ts ih =>
    obtain ⟨hu, hrest⟩ := List.forall_mem_cons.mp hts
    have ha := inList_of_closes h
    exact staysInList_cons.mpr ⟨ha, ih hrest ((closes_cons ha hu _).mp h)⟩

/-- A list that was begun is under way, and one that is under way can be closed. -/
theorem openList_iff_staysInList : OpenList ts ↔ parameterList.StaysInList ts := by
  constructor
  · rintro ⟨t, more, ps, h⟩
    exact staysInList_of_closes hts ⟨ps, h⟩
  · intro h
    obtain ⟨t, more, hcloses⟩ := exists_closes h.inList_after
    obtain ⟨ps, hps⟩ := (h.closes_append hts (t :: more)).mpr hcloses
    exact ⟨t, more, ps, hps⟩

end StaysInList

theorem inList_of_openList (hts : ∀ t ∈ ts, t.Ordinary) (h : OpenList ts) :
    (parameterList.after ts).InList :=
  ((openList_iff_staysInList fun t ht => (hts t ht).comment).mp h).inList_after

theorem after_of_parameterList (hts : ∀ t ∈ ts, t.Ordinary) {ps : List (Token × Token)}
    (h : ParameterList ts ps) : parameterList.after ts = .body true := by
  rw [← List.append_nil ts] at h
  exact (closes_nil_iff _).mp (closes_after (a := .parameterList) hts ⟨ps, h⟩)

theorem after_of_brokenList (hts : ∀ t ∈ ts, t.Ordinary) (h : BrokenList ts) :
    parameterList.after ts = .body false := by
  obtain ⟨init, t, rfl, hopen, hstop, hnone⟩ := h
  obtain ⟨hinit, ht⟩ := List.forall_mem_append.mp hts
  have hordinary : t.Ordinary := ht t (by simp)
  have hsignificant : ∀ t ∈ init, t.isComment = false := fun t ht => (hinit t ht).comment
  have hstays := (openList_iff_staysInList hsignificant).mp hopen
  have hin := hstays.inList_after
  -- What closes the list behind the tokens closes it behind all that is read of them.
  have hcloses : ∀ us, (∃ ps, ParameterList (init ++ t :: us) ps) ↔
      (parameterList.after (init ++ [t])).Closes us := by
    intro us
    rw [after_append]
    exact (hstays.closes_append hsignificant (t :: us)).trans (closes_cons hin hordinary.comment us)
  have hafter : parameterList.after (init ++ [t]) =
      ((parameterList.after init).respond t).next := by rw [after_append]; rfl
  rcases next_of_listAnswer hin hordinary.comment with hlist | ⟨listAccepted, hbody⟩
  · obtain ⟨v, us, hv⟩ := exists_closes hlist
    rw [← hafter] at hv
    obtain ⟨qs, hqs⟩ := (hcloses (v :: us)).mpr hv
    exact (hstop ⟨v, us, qs, by simpa using hqs⟩).elim
  · cases listAccepted with
    | false => rw [hafter, hbody]
    | true =>
      obtain ⟨qs, hqs⟩ := (hcloses []).mpr ((closes_nil_iff _).mpr (hafter.trans hbody))
      exact (hnone qs hqs).elim

end Awaiting

end SlsLang
