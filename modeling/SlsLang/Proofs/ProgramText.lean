import SlsLang.Proofs.ProgramForm
import SlsLang.Proofs.WholeConstant

namespace SlsLang

open Lexeme

/-- The whitespace around and between the lexemes of a text. -/
structure Spacing where
  before : List Char
  between : Nat → List Char
  after : List Char
  before_white : ∀ c ∈ before, isWhitespace c = true
  between_white : ∀ n, ∀ c ∈ between n, isWhitespace c = true
  between_ne_nil : ∀ n, between n ≠ []
  after_white : ∀ c ∈ after, isWhitespace c = true

namespace Spacing

def writeFrom (s : Spacing) (n : Nat) : List Lexeme → List Char
  | [] => s.after
  | [l] => l.slice ++ s.after
  | l :: m :: ls => l.slice ++ (s.between n ++ s.writeFrom (n + 1) (m :: ls))

def write (s : Spacing) (ls : List Lexeme) : List Char := s.before ++ s.writeFrom 0 ls

end Spacing

/-- A lexeme that is read back and is no comment, so that any whitespace ends it. -/
def Lexeme.Solid (l : Lexeme) : Prop := l.ReadBack ∧ l.kind ≠ .comment

theorem endsBefore_of_white {l : Lexeme} {gap : List Char} (h : l.Solid)
    (hw : ∀ c ∈ gap, isWhitespace c = true) (rest : List Char) (hne : gap = [] → rest = []) :
    l.EndsBefore (gap ++ rest) := by
  intro c hc
  cases gap with
  | nil => simp [hne rfl] at hc
  | cons d gap =>
    obtain rfl : d = c := by simpa using hc
    exact ⟨hw d (by simp), fun hp => (h.2 (h.1.kind_of_slashes hp)).elim⟩

theorem writes_writeFrom (s : Spacing) {ls : List Lexeme} (h : ∀ l ∈ ls, l.Solid) (n : Nat) :
    Writes ls (s.writeFrom n ls) := by
  induction ls generalizing n with
  | nil => exact .nil s.after_white
  | cons l ls ih =>
    have hl := h l (by simp)
    have hnone : ∀ c ∈ ([] : List Char), isWhitespace c = true := by simp
    cases ls with
    | nil =>
      have hends := endsBefore_of_white hl s.after_white [] fun _ => rfl
      rw [List.append_nil] at hends
      exact .cons hnone hends (.nil s.after_white)
    | cons m ls =>
      have htail := ih (fun k hk => h k (List.mem_cons_of_mem l hk)) (n + 1)
      have hends := endsBefore_of_white hl (s.between_white n) (s.writeFrom (n + 1) (m :: ls))
        fun hne => (s.between_ne_nil n hne).elim
      exact .cons hnone hends (htail.white_append (s.between_white n))

theorem writes_write (s : Spacing) {ls : List Lexeme} (h : ∀ l ∈ ls, l.Solid) :
    Writes ls (s.write ls) :=
  (writes_writeFrom s h 0).white_append s.before_white

theorem solid_literal (l : LiteralForm) : l.lexeme.Solid := by
  refine ⟨readBack_constant l.whole l.constant l.faultless, ?_⟩
  intro hk
  have hc := l.constant
  rw [← LiteralForm.lexeme, hk] at hc
  simp [TokenKind.isConstant] at hc

theorem solid_name (n : NameForm) : n.lexeme.Solid := by
  have hr := readBack_word n.wellFormed
  rw [wordForm, if_neg (by simp [n.free])] at hr
  exact ⟨hr, by simp [NameForm.lexeme]⟩

theorem solid_value (v : ValueForm) : v.lexeme.Solid := by
  cases v with
  | name n => exact solid_name n
  | literal l => exact solid_literal l

theorem solid_keyword {word : String} (h : isKeyword word = true) : (keywordLexeme word).Solid := by
  have hr := readBack_word (isIdentifier_of_isKeyword h)
  rw [wordForm, if_pos h] at hr
  exact ⟨hr, by simp [keywordLexeme]⟩

theorem solid_mark {c : Char} (h : isPunctuation c = true) : (markLexeme c).Solid :=
  ⟨readBack_punctuation h, by simp [markLexeme, Lexeme.verbatim]⟩

theorem solid_equals : equalsLexeme.Solid :=
  ⟨readBack_operator (by decide), by simp [equalsLexeme, Lexeme.verbatim]⟩

theorem solid_separated {separator : Lexeme} {items : List (List Lexeme)} (hs : separator.Solid)
    (hi : ∀ item ∈ items, ∀ l ∈ item, l.Solid) : ∀ l ∈ separated separator items, l.Solid := by
  cases items with
  | nil => simp [separated]
  | cons item items =>
    rw [separated, List.forall_mem_append]
    refine ⟨hi item (by simp), ?_⟩
    intro l hl
    obtain ⟨next, hnext, hl⟩ := List.mem_flatMap.mp hl
    rcases List.mem_cons.mp hl with rfl | hl
    · exact hs
    · exact hi next (List.mem_cons_of_mem item hnext) l hl

theorem solid_statement (s : StatementForm) : ∀ l ∈ s.lexemes, l.Solid := by
  cases s with
  | declaration name type init? =>
    simp only [StatementForm.lexemes, List.forall_mem_cons]
    refine ⟨solid_keyword (by decide), solid_name name, solid_mark (by decide), solid_name type, ?_⟩
    cases init? with
    | none => simp
    | some value => simpa using ⟨solid_equals, solid_value value⟩
  | assignment target value =>
    simpa [StatementForm.lexemes] using ⟨solid_name target, solid_equals, solid_value value⟩
  | call head path arguments =>
    simp only [StatementForm.lexemes, List.forall_mem_append, List.forall_mem_cons]
    refine ⟨solid_separated (solid_mark (by decide)) ?_, ⟨solid_mark (by decide),
      solid_separated (solid_mark (by decide)) ?_⟩, solid_mark (by decide), by simp⟩
    · intro item hi l hl
      obtain ⟨n, _, rfl⟩ := List.mem_map.mp hi
      rw [List.mem_singleton.mp hl]
      exact solid_name n
    · intro item hi l hl
      obtain ⟨v, _, rfl⟩ := List.mem_map.mp hi
      rw [List.mem_singleton.mp hl]
      exact solid_value v

theorem solid_function (f : FunctionForm) : ∀ l ∈ f.lexemes, l.Solid := by
  have hparameters : ∀ l ∈ separated (markLexeme ',') (f.parameters.map ParameterForm.lexemes),
      l.Solid := by
    refine solid_separated (solid_mark (by decide)) ?_
    intro item hi
    obtain ⟨p, _, rfl⟩ := List.mem_map.mp hi
    simpa [ParameterForm.lexemes] using ⟨solid_name p.type, solid_name p.name⟩
  have hstatements : ∀ l ∈ f.statements.flatMap fun s => s.lexemes ++ [markLexeme ';'],
      l.Solid := by
    intro l hl
    obtain ⟨s, _, hl⟩ := List.mem_flatMap.mp hl
    rcases List.mem_append.mp hl with hl | hl
    · exact solid_statement s l hl
    · rw [List.mem_singleton.mp hl]
      exact solid_mark (by decide)
  simp only [FunctionForm.lexemes, List.forall_mem_append, List.forall_mem_cons]
  refine ⟨⟨⟨⟨⟨solid_keyword (by decide), solid_name f.name, solid_mark (by decide), by simp⟩,
    hparameters⟩, solid_mark (by decide), solid_mark (by decide), by simp⟩, hstatements⟩,
    solid_mark (by decide), by simp⟩

/-- The lexemes of functions are read back from any text that has whitespace between them. -/
theorem map_lexeme_readings_write (file : String) (fs : List FunctionForm) (s : Spacing) :
    let ls := fs.flatMap FunctionForm.lexemes
    let rs := (Lexer.start file (String.ofList (s.write ls))).readings
    rs.map Reading.lexeme = ls ++ [.endOfFile] ∧ rs.flatMap Reading.diagnostics = [] := by
  intro ls rs
  have hsolid : ∀ l ∈ ls, l.Solid := by
    intro l hl
    obtain ⟨f, _, hl⟩ := List.mem_flatMap.mp hl
    exact solid_function f l hl
  have hback : ∀ l ∈ ls, l.ReadBack := fun l hl => (hsolid l hl).1
  have hwrites : Writes ls (String.ofList (s.write ls)).toList := by
    rw [String.toList_ofList]
    exact writes_write s hsolid
  have hread := map_lexeme_readings_start file hwrites hback
  exact ⟨hread, flatMap_diagnostics_eq_nil hread hback⟩

end SlsLang
