import Mathlib.Data.List.Chain
import Mathlib.Data.List.TakeWhile
import SlsLang.CallStatement

namespace SlsLang

/-- Items with one mark between any two of them, and the items alone. -/
inductive Separated (item : Token → Bool) (mark : String) : List Token → List Token → Prop
  | one {t : Token} (isItem : item t = true) : Separated item mark [t] [t]
  | more {t m : Token} {ts items : List Token} (isItem : item t = true)
    (isMark : m.isPunctuation mark = true) (rest : Separated item mark ts items) :
    Separated item mark (t :: m :: ts) (t :: items)

/-- A run of tokens is written as the grammar asks for this statement. -/
inductive Spells : List Token → Statement → Prop
  | declaration {var name colon type : Token} (isVar : var.isKeyword "var" = true)
    (isName : name.isIdentifier = true) (isColon : colon.isPunctuation ":" = true)
    (isType : type.isIdentifier = true) :
    Spells [var, name, colon, type] (.declaration name type none)
  | initialized {var name colon type equals value : Token} (isVar : var.isKeyword "var" = true)
    (isName : name.isIdentifier = true) (isColon : colon.isPunctuation ":" = true)
    (isType : type.isIdentifier = true) (isEquals : equals.isOperator "=" = true)
    (isValue : value.isValue = true) :
    Spells [var, name, colon, type, equals, value] (.declaration name type (some value))
  | assignment {target equals value : Token} (isTarget : target.isIdentifier = true)
    (isEquals : equals.isOperator "=" = true) (isValue : value.isValue = true) :
    Spells [target, equals, value] (.assignment target value)
  | call {callee names inside arguments : List Token} {head opening closing : Token}
    (isCallee : Separated Token.isIdentifier "." callee (head :: names))
    (isOpening : opening.isPunctuation "(" = true)
    (isInside : inside = [] ∧ arguments = [] ∨ Separated Token.isValue "," inside arguments)
    (isClosing : closing.isPunctuation ")" = true) :
    Spells (callee ++ opening :: (inside ++ [closing]))
      (.call head (".".intercalate ((head :: names).map Token.text)) arguments)

namespace Token

/-- What makes up the name of a call. -/
def isNameOrDot (t : Token) : Bool := t.isIdentifier || t.isPunctuation "."

theorem kind_of_isPunctuation {t : Token} {text : String} (h : t.isPunctuation text = true) :
    t.kind = .punctuation ∧ t.text = text := by
  simpa [isPunctuation] using h

theorem not_isIdentifier_of_isPunctuation {t : Token} {text : String}
    (h : t.isPunctuation text = true) : t.isIdentifier = false := by
  simp [isIdentifier, (kind_of_isPunctuation h).1]

theorem not_isPunctuation_of_isValue {t : Token} (h : t.isValue = true) (text : String) :
    t.isPunctuation text = false := by
  cases hp : t.isPunctuation text with
  | false => rfl
  | true => simp [isValue, (kind_of_isPunctuation hp).1, TokenKind.isConstant] at h

theorem isValue_of_isIdentifier {t : Token} (h : t.isIdentifier = true) : t.isValue = true := by
  have hk : t.kind = .identifier := by simpa [isIdentifier] using h
  simp [isValue, hk]

theorem not_isPunctuation_of_ne {t : Token} {text other : String}
    (h : t.isPunctuation text = true) (hne : text ≠ other) : t.isPunctuation other = false := by
  simp [isPunctuation, (kind_of_isPunctuation h).2, hne]

end Token

section Callee

/-- The first token is a dot if one is due, and any other token if and only if a name stands before
it. -/
def DotsDue (dotDue : Bool) (ts : List Token) : Prop :=
  (∀ t ∈ ts.head?, t.isPunctuation "." = dotDue) ∧
    ts.IsChain fun t u => u.isPunctuation "." = t.isIdentifier

theorem dotsDue_nil (dotDue : Bool) : DotsDue dotDue [] := ⟨by simp, .nil⟩

theorem dotsDue_cons (dotDue : Bool) (t : Token) (ts : List Token) :
    DotsDue dotDue (t :: ts) ↔ t.isPunctuation "." = dotDue ∧ DotsDue t.isIdentifier ts := by
  simp [DotsDue, List.isChain_cons]

/-- The name that a row of tokens makes, of its names and dots alone. -/
def calleeText (ts : List Token) : String :=
  String.join ((ts.filter Token.isNameOrDot).map Token.text)

/-- No fault is found in a name if dots stand behind names and nowhere else. What is neither is passed
over. -/
theorem calleePieces_eq_iff (dotDue : Bool) (ts : List Token) :
    (calleePieces dotDue ts).2 = [] ↔ DotsDue dotDue ts := by
  induction ts generalizing dotDue with
  | nil => simp [calleePieces, dotsDue_nil]
  | cons t ts ih =>
    rw [dotsDue_cons]
    cases hd : t.isPunctuation "." with
    | true =>
      rw [Token.not_isIdentifier_of_isPunctuation hd, ← ih]
      cases dotDue <;> simp [calleePieces, hd]
    | false =>
      rw [← ih]
      cases dotDue <;> simp [calleePieces, hd]

theorem calleePieces_of_dotsDue {dotDue : Bool} {ts : List Token} (h : DotsDue dotDue ts) :
    (calleePieces dotDue ts).1 = (ts.filter Token.isNameOrDot).map Token.text := by
  induction ts generalizing dotDue with
  | nil => rfl
  | cons t ts ih =>
    obtain ⟨rfl, htail⟩ := (dotsDue_cons dotDue t ts).mp h
    cases hd : t.isPunctuation "." with
    | true =>
      have hname := Token.not_isIdentifier_of_isPunctuation hd
      rw [hname] at htail
      simp [calleePieces, hd, Token.isNameOrDot, ih htail, (Token.kind_of_isPunctuation hd).2]
    | false =>
      cases hname : t.isIdentifier <;> rw [hname] at htail <;>
        simp [calleePieces, hd, hname, Token.isNameOrDot, ih htail]

/-- The name has a name at its end, and nothing but names and dots. -/
def WholeCallee (callee : List Token) : Prop :=
  (∀ t ∈ callee, t.isNameOrDot = true) ∧ ∀ t ∈ callee.getLast?, t.isIdentifier = true

theorem Separated.dotsDue {callee names : List Token}
    (h : Separated Token.isIdentifier "." callee names) : DotsDue false callee := by
  induction h with
  | one isItem =>
    have hd := Token.not_isPunctuation_of_isValue (Token.isValue_of_isIdentifier isItem) "."
    exact (dotsDue_cons _ _ _).mpr ⟨hd, dotsDue_nil _⟩
  | more isItem isMark _ ih =>
    have hd := Token.not_isPunctuation_of_isValue (Token.isValue_of_isIdentifier isItem) "."
    refine (dotsDue_cons _ _ _).mpr ⟨hd, (dotsDue_cons _ _ _).mpr ⟨?_, ?_⟩⟩
    · rw [isMark, isItem]
    · rwa [Token.not_isIdentifier_of_isPunctuation isMark]

theorem Separated.ne_nil {item : Token → Bool} {mark : String} {ts items : List Token}
    (h : Separated item mark ts items) : ts ≠ [] := by
  cases h <;> exact List.cons_ne_nil _ _

theorem Separated.item_or_mark {item : Token → Bool} {mark : String} {ts items : List Token}
    (h : Separated item mark ts items) :
    ∀ t ∈ ts, item t = true ∨ t.isPunctuation mark = true := by
  induction h with
  | one isItem => simp [isItem]
  | more isItem isMark _ ih =>
    exact List.forall_mem_cons.mpr ⟨.inl isItem, List.forall_mem_cons.mpr ⟨.inr isMark, ih⟩⟩

theorem Separated.item_getLast {item : Token → Bool} {mark : String} {ts items : List Token}
    (h : Separated item mark ts items) : ∀ t ∈ ts.getLast?, item t = true := by
  induction h with
  | one isItem => simpa using isItem
  | @more t m ts items _ _ rest ih =>
    obtain ⟨u, us, rfl⟩ := List.exists_cons_of_ne_nil rest.ne_nil
    rwa [List.getLast?_cons_cons, List.getLast?_cons_cons]

theorem Separated.wholeCallee {callee names : List Token}
    (h : Separated Token.isIdentifier "." callee names) : WholeCallee callee := by
  refine ⟨fun t ht => ?_, h.item_getLast⟩
  rcases h.item_or_mark t ht with hname | hdot
  · simp [Token.isNameOrDot, hname]
  · simp [Token.isNameOrDot, hdot]

theorem Separated.calleeText {callee names : List Token}
    (h : Separated Token.isIdentifier "." callee names) :
    calleeText callee = ".".intercalate (names.map Token.text) := by
  induction h with
  | one isItem => simp [SlsLang.calleeText, Token.isNameOrDot, isItem]
  | @more t m ts items isItem isMark rest ih =>
    have hitems : ∃ u us, items = u :: us := by
      cases rest <;> exact ⟨_, _, rfl⟩
    obtain ⟨u, us, rfl⟩ := hitems
    have hmark := (Token.kind_of_isPunctuation isMark).2
    rw [SlsLang.calleeText] at ih
    simp [SlsLang.calleeText, Token.isNameOrDot, isItem, isMark, ih, hmark,
      String.intercalate_cons_cons, String.append_assoc]

/-- Where dots stand behind names only, and names and dots are all there is, names are separated by
dots. -/
theorem exists_separated_of_dotsDue {callee : List Token} (hne : callee ≠ [])
    (hdots : DotsDue false callee) (hwhole : WholeCallee callee) :
    ∃ names, Separated Token.isIdentifier "." callee names := by
  match callee, hne with
  | [t], _ =>
    have ht : t.isIdentifier = true := hwhole.2 t (by simp)
    exact ⟨[t], .one ht⟩
  | [t, m], _ =>
    -- A dot would stand at the end.
    obtain ⟨hfirst, hrest⟩ := (dotsDue_cons _ _ _).mp hdots
    obtain ⟨hsecond, -⟩ := (dotsDue_cons _ _ _).mp hrest
    have ht : t.isNameOrDot = true := hwhole.1 t (by simp)
    have hm : m.isIdentifier = true := hwhole.2 m (by simp)
    have hdot := Token.not_isPunctuation_of_isValue (Token.isValue_of_isIdentifier hm) "."
    simp [Token.isNameOrDot, hfirst, ← hsecond, hdot] at ht
  | t :: m :: u :: us, _ =>
    obtain ⟨hfirst, hrest⟩ := (dotsDue_cons _ _ _).mp hdots
    obtain ⟨hsecond, htail⟩ := (dotsDue_cons _ _ _).mp hrest
    obtain ⟨hall, hlast⟩ := hwhole
    have ht : t.isNameOrDot = true := hall t (by simp)
    have hname : t.isIdentifier = true := by simpa [Token.isNameOrDot, hfirst] using ht
    rw [hname] at hsecond
    rw [Token.not_isIdentifier_of_isPunctuation hsecond] at htail
    rw [List.getLast?_cons_cons, List.getLast?_cons_cons] at hlast
    have hrest : WholeCallee (u :: us) := ⟨fun v hv => hall v (by simp [hv]), hlast⟩
    obtain ⟨names, hnames⟩ := exists_separated_of_dotsDue (List.cons_ne_nil u us) htail hrest
    exact ⟨t :: names, .more hname hsecond hnames⟩

end Callee

section Arguments

/-- Every second token is a comma, and the others are slots for the values. -/
inductive Slots : List Token → List Token → Prop
  | nil : Slots [] []
  | last (t : Token) : Slots [t] [t]
  | more {comma : Token} {ts slots : List Token} (t : Token)
    (isComma : comma.isPunctuation "," = true) (rest : Slots ts slots) :
    Slots (t :: comma :: ts) (t :: slots)

theorem Slots.callArguments_eq {ts slots : List Token} (h : Slots ts slots) :
    callArguments ts = (slots.filter Token.isValue, []) := by
  induction h with
  | nil => rfl
  | last t => cases hv : t.isValue <;> simp [callArguments, hv]
  | more t isComma _ ih => cases hv : t.isValue <;> simp [callArguments, isComma, ih, hv]

theorem exists_slots_of_callArguments {ts : List Token} (h : (callArguments ts).2 = []) :
    ∃ slots, Slots ts slots := by
  fun_induction callArguments ts with
  | case1 => exact ⟨[], .nil⟩
  | case2 t => exact ⟨[t], .last t⟩
  | case3 t comma ts value hc values faults heq ih =>
    rw [heq] at ih
    obtain ⟨slots, hslots⟩ := ih h
    exact ⟨t :: slots, .more t hc hslots⟩
  | case4 t comma ts value hc => simp at h

theorem Slots.unique {ts slots slots' : List Token} (h : Slots ts slots) (h' : Slots ts slots') :
    slots = slots' := by
  induction h generalizing slots' with
  | nil =>
    cases h'
    rfl
  | last t =>
    cases h'
    rfl
  | more t isComma _ ih =>
    cases h' with
    | more _ _ rest' => rw [ih rest']

/-- Every slot has a value, and behind the last comma there is one. -/
def WholeArguments (inside slots : List Token) : Prop :=
  (∀ t ∈ slots, t.isValue = true) ∧ (inside = [] ∨ inside.length % 2 = 1)

theorem Separated.slots {inside arguments : List Token}
    (h : Separated Token.isValue "," inside arguments) :
    Slots inside arguments ∧ (∀ t ∈ arguments, t.isValue = true) ∧ inside.length % 2 = 1 := by
  induction h with
  | one isItem => exact ⟨.last _, by simpa using isItem, rfl⟩
  | more isItem isMark _ ih =>
    obtain ⟨hslots, hvalues, hodd⟩ := ih
    refine ⟨.more _ isMark hslots, List.forall_mem_cons.mpr ⟨isItem, hvalues⟩, ?_⟩
    simp only [List.length_cons]
    omega

theorem Slots.separated {inside slots : List Token} (h : Slots inside slots)
    (hvalues : ∀ t ∈ slots, t.isValue = true) (hodd : inside.length % 2 = 1) :
    Separated Token.isValue "," inside slots := by
  induction h with
  | nil => simp at hodd
  | last t => exact .one (hvalues t List.mem_cons_self)
  | more t isComma _ ih =>
    obtain ⟨ht, hrest⟩ := List.forall_mem_cons.mp hvalues
    refine .more ht isComma (ih hrest ?_)
    simp only [List.length_cons] at hodd
    omega

/-- Between the parentheses stand values with commas between them exactly if the slots are filled. -/
theorem arguments_iff {inside arguments : List Token} :
    (inside = [] ∧ arguments = [] ∨ Separated Token.isValue "," inside arguments) ↔
      Slots inside arguments ∧ WholeArguments inside arguments := by
  constructor
  · rintro (⟨rfl, rfl⟩ | h)
    · exact ⟨.nil, by simp, .inl rfl⟩
    · obtain ⟨hslots, hvalues, hodd⟩ := h.slots
      exact ⟨hslots, hvalues, .inr hodd⟩
  · rintro ⟨hslots, hvalues, rfl | hodd⟩
    · cases hslots
      exact .inl ⟨rfl, rfl⟩
    · exact .inr (hslots.separated hvalues hodd)

end Arguments

end SlsLang
