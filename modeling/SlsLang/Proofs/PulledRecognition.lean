import SlsLang.Compilation
import SlsLang.Proofs.LexemePromise
import SlsLang.Proofs.SignificantTokens
import SlsLang.PullSchedule

namespace SlsLang

theorem Token.isEndOfFile_iff (t : Token) : t.isEndOfFile = true ↔ t.kind = .endOfFile := by
  simp [Token.isEndOfFile]

/-- The end of the text is no other token. -/
theorem Token.of_endOfFile {t : Token} (ht : t.kind = .endOfFile) :
    t.isEndOfFile = true ∧ t.isComment = false ∧ t.isIdentifier = false ∧
      (∀ text, t.isPunctuation text = false) ∧ ∀ text, t.isKeyword text = false := by
  simp [Token.isEndOfFile, Token.isComment, Token.isIdentifier, Token.isPunctuation,
    Token.isKeyword, ht]

namespace Lexer

theorem place_next (l : Lexer) : l.next.1.place =
    let c := l.cursor.skip (l.cursor.rest.takeWhile isWhitespace).length
    ⟨l.file, c.line, c.column, c.lineText⟩ := rfl

/-- The end of the text is read where nothing but whitespace is left. -/
theorem next_of_isLast {l : Lexer} (h : l.next.1.isLast = true) :
    l.next.1.lexeme = .endOfFile ∧
      l.next.2.cursor = l.cursor.skip (l.cursor.rest.takeWhile isWhitespace).length ∧
      l.next.2.cursor.rest = [] := by
  have hkind : (nextLexeme (l.cursor.rest.dropWhile isWhitespace)).kind = .endOfFile := by
    rw [← next_lexeme]
    exact (Token.isEndOfFile_iff _).mp h
  obtain ⟨after, hcs, hp⟩ := nextLexeme_keptOn (l.cursor.rest.dropWhile isWhitespace)
  rw [Lexeme.Promise, hkind] at hp
  have hrest : l.cursor.rest.dropWhile isWhitespace = [] := by
    rw [hcs, hp.1, hp.2.2.2]
    rfl
  have hlexeme : l.next.1.lexeme = .endOfFile := by
    rw [next_lexeme, hrest]
    rfl
  have hcursor : l.next.2.cursor =
      (l.cursor.skip (l.cursor.rest.takeWhile isWhitespace).length).skip
        l.next.1.lexeme.slice.length := rfl
  rw [hlexeme] at hcursor
  exact ⟨hlexeme, hcursor, by rw [rest_next, hrest, List.drop_nil]⟩

/-- Once the end of the text is read, the next reading is of the same token. -/
theorem next_next_of_isLast {l : Lexer} (h : l.next.1.isLast = true) :
    l.next.2.next.1.isLast = true ∧ l.next.2.next.1.token = l.next.1.token := by
  obtain ⟨hlexeme, hcursor, hrest⟩ := next_of_isLast h
  have hend : l.next.2.next.1.lexeme = .endOfFile := by
    rw [next_lexeme, hrest]
    rfl
  have hskip : l.next.2.cursor.skip (l.next.2.cursor.rest.takeWhile isWhitespace).length =
      l.next.2.cursor := by
    rw [hrest]
    rfl
  have hplace : l.next.2.next.1.place = l.next.1.place := by
    rw [place_next, place_next, hskip, hcursor]
    rfl
  constructor
  · rw [Reading.isLast, Reading.token, hend]
    rfl
  · rw [Reading.token, Reading.token, hend, hlexeme, hplace]

end Lexer

/-- A recognizer at work on a lexer. A token is pulled when it is due, and what is wrong with its
spelling and with its position goes into one list. -/
structure PulledRecognition where
  source : PulledLexer
  awaiting : Awaiting
  constructs : List Construct
  pulled : List Token

namespace PulledRecognition

def start (file text : String) : PulledRecognition := ⟨.start file text, .function, [], []⟩

/-- Pulls one token and answers it. -/
def step (p : PulledRecognition) : PulledRecognition :=
  let (reading, source) := p.source.next
  let response := p.awaiting.respond reading.token
  ⟨{ source with diagnostics := source.diagnostics ++ response.faults }, response.next,
    p.constructs ++ response.construct?.toList, p.pulled ++ [reading.token]⟩

end PulledRecognition

namespace Awaiting

/-- How often the end of the text can be pulled before a function is given up. -/
def patience : Awaiting → Nat
  | function => 0
  | functionName | body _ | statement _ => 1
  | _ => 2

section EndOfFile

variable {t : Token} (ht : t.kind = .endOfFile)

include ht

/-- What the end of the text leaves due: no function, or a body that has a fault before it. -/
theorem next_respond_endOfFile (a : Awaiting) :
    (a.respond t).next = .function ∨ a.patience = 2 ∧ (a.respond t).next = .body false := by
  obtain ⟨hend, hcomment, hname, hmark, hword⟩ := Token.of_endOfFile ht
  cases a with
  | function => simp [respond, respondTo, hcomment, hword, ht, Response.pass]
  | functionName => simp [respond, respondTo, hcomment, hname, Response.refuse]
  | body listAccepted =>
    cases listAccepted <;>
      simp [respond, respondTo, hcomment, hend, hmark, Response.refuse, Response.pass]
  | statement run => simp [respond, respondTo, hcomment, hend, hmark, Response.refuse]
  | parameterList | firstParameter | nextParameter | parameterType | parameterName =>
    simp [respond, respondTo, respondToType, hcomment, hend, hname, hmark, Response.refuse,
      patience]

/-- The end of the text brings every function closer to its end. -/
theorem patience_respond {a : Awaiting} (ha : a ≠ .function) :
    (a.respond t).next.patience < a.patience := by
  rcases a.next_respond_endOfFile ht with hnext | ⟨hpatience, hnext⟩
  · rw [hnext]
    cases a <;> simp_all [patience]
  · rw [hnext, hpatience]
    decide

/-- A second end of the text is passed over in silence. -/
theorem respond_respond_endOfFile (a : Awaiting) :
    ((a.respond t).next).respond t = .pass .function := by
  obtain ⟨hend, hcomment, -, hmark, hword⟩ := Token.of_endOfFile ht
  rcases a.next_respond_endOfFile ht with hnext | ⟨_, hnext⟩ <;> rw [hnext]
  · simp [respond, respondTo, hcomment, hword, ht]
  · simp [respond, respondTo, hcomment, hend, hmark]

end EndOfFile

end Awaiting

namespace PulledRecognition

/-- Recognition is over once the end of the text is read where a function could start. -/
def Over (p : PulledRecognition) : Prop := p.source.next.1.isLast = true ∧ p.awaiting = .function

instance (p : PulledRecognition) : Decidable p.Over := instDecidableAnd

/-- A step leaves less text, or no text and less patience. -/
theorem step_decreases {p : PulledRecognition} (h : ¬ p.Over) :
    Prod.Lex (· < ·) (· < ·) (p.step.source.lexer.cursor.rest.length, p.step.awaiting.patience)
      (p.source.lexer.cursor.rest.length, p.awaiting.patience) := by
  cases hl : p.source.next.1.isLast with
  | false => exact .left _ _ (Lexer.length_rest_next hl)
  | true =>
    have ha : p.awaiting ≠ .function := fun ha => h ⟨hl, ha⟩
    have hrest : p.step.source.lexer.cursor.rest = [] := (Lexer.next_of_isLast hl).2.2
    have hpatience := Awaiting.patience_respond ((Token.isEndOfFile_iff _).mp hl) ha
    rw [hrest]
    rcases Nat.eq_zero_or_pos p.source.lexer.cursor.rest.length with hz | hpos
    · rw [hz]
      exact .right _ hpatience
    · exact .left _ _ hpos

/-- Within a function the end of the text is a token like others, and it is pulled once more. -/
def run (p : PulledRecognition) : PulledRecognition := if p.Over then p.step else p.step.run
termination_by (p.source.lexer.cursor.rest.length, p.awaiting.patience)
decreasing_by exact step_decreases (by assumption)

/-- The readings that are still to be made. -/
def ahead (p : PulledRecognition) : List Reading := p.source.lexer.readings

theorem ahead_step {p : PulledRecognition} (h : p.source.next.1.isLast = false) :
    p.ahead = p.source.next.1 :: p.step.ahead :=
  (Lexer.readings_eq p.source.lexer).trans (if_neg (Bool.eq_false_iff.mp h))

theorem ahead_last {p : PulledRecognition} (h : p.source.next.1.isLast = true) :
    p.ahead = [p.source.next.1] :=
  (Lexer.readings_eq p.source.lexer).trans (if_pos h)

/-- Past the end of the text the same token is ahead again, without fault. -/
theorem ahead_step_last {p : PulledRecognition} (h : p.source.next.1.isLast = true) :
    ∃ r, p.step.ahead = [r] ∧ r.token = p.source.next.1.token ∧ r.diagnostics = [] := by
  obtain ⟨hlast, htoken⟩ := Lexer.next_next_of_isLast h
  have hlexeme := (Lexer.next_of_isLast hlast).1
  refine ⟨p.step.source.next.1, ahead_last hlast, htoken, ?_⟩
  rw [Reading.diagnostics, show p.step.source.next.1.lexeme = .endOfFile from hlexeme]
  rfl

/-- What a run to its end comes to: all that is ahead is pulled once and answered, and nothing but
the end of the text is pulled again. -/
structure Finishes (p q : PulledRecognition) : Prop where
  constructs : q.constructs = p.constructs ++ p.awaiting.constructs (p.ahead.map Reading.token)
  diagnostics : q.source.diagnostics = p.source.diagnostics ++ blamed p.awaiting p.ahead
  pulled : ∃ init last again, last.isEndOfFile = true ∧
    p.ahead.map Reading.token = init ++ [last] ∧
    q.pulled = p.pulled ++ (init ++ last :: List.replicate again last)

section Finishing

variable {p q : PulledRecognition}

theorem finishes_over (h : p.Over) : p.Finishes p.step := by
  have hahead := ahead_last h.1
  refine ⟨?_, ?_, [], p.source.next.1.token, 0, h.1, by rw [hahead]; rfl, rfl⟩
  · rw [hahead, List.map_singleton, Awaiting.constructs_singleton]
    rfl
  · rw [hahead, blamed_singleton, ← List.append_assoc]
    rfl

theorem Finishes.of_step (hl : p.source.next.1.isLast = false) (h : p.step.Finishes q) :
    p.Finishes q := by
  obtain ⟨hconstructs, hdiagnostics, init, last, again, hlast, hahead, hpulled⟩ := h
  have hcons := ahead_step hl
  refine ⟨?_, ?_, p.source.next.1.token :: init, last, again, hlast, ?_, ?_⟩
  · rw [hconstructs, hcons, List.map_cons, Awaiting.constructs_cons, ← List.append_assoc]
    rfl
  · rw [hdiagnostics, hcons, blamed_cons, ← List.append_assoc, ← List.append_assoc]
    rfl
  · rw [hcons, List.map_cons, hahead, List.cons_append]
  · rw [hpulled]
    simp [step]

/-- When the end of the text ends no function yet, pulling it again adds nothing. -/
theorem Finishes.of_last (hl : p.source.next.1.isLast = true) (h : p.step.Finishes q) :
    p.Finishes q := by
  obtain ⟨hconstructs, hdiagnostics, init, last, again, hlast, hahead, hpulled⟩ := h
  obtain ⟨r, hr, htoken, hfaultless⟩ := ahead_step_last hl
  have hanswer : p.step.awaiting.respond r.token = .pass .function := by
    rw [htoken]
    exact p.awaiting.respond_respond_endOfFile ((Token.isEndOfFile_iff _).mp hl)
  have hnothing : p.step.awaiting.constructs ([r].map Reading.token) = [] := by
    rw [List.map_singleton, Awaiting.constructs_singleton, hanswer]
    rfl
  have hsilent : blamed p.step.awaiting [r] = [] := by
    rw [blamed_singleton, hanswer, hfaultless]
    rfl
  rw [hr] at hconstructs hdiagnostics hahead
  rw [hnothing, List.append_nil] at hconstructs
  rw [hsilent, List.append_nil] at hdiagnostics
  obtain ⟨rfl, rfl⟩ : init = [] ∧ r.token = last := by
    cases init with
    | nil => exact ⟨rfl, List.singleton_inj.mp hahead⟩
    | cons t init => simp at hahead
  have hcons := ahead_last hl
  refine ⟨?_, ?_, [], p.source.next.1.token, again + 1, hl, by rw [hcons]; rfl, ?_⟩
  · rw [hconstructs, hcons, List.map_singleton, Awaiting.constructs_singleton]
    rfl
  · rw [hdiagnostics, hcons, blamed_singleton, ← List.append_assoc]
    rfl
  · rw [hpulled, htoken, List.replicate_succ]
    simp [step]

end Finishing

theorem run_finishes (p : PulledRecognition) : p.Finishes p.run := by
  rw [run]
  split
  next h => exact finishes_over h
  next h =>
    have hrest := run_finishes p.step
    cases hl : p.source.next.1.isLast with
    | false => exact hrest.of_step hl
    | true => exact hrest.of_last hl
-- A pull shortens the text, and at its end it wears out the patience of the function under way.
termination_by (p.source.lexer.cursor.rest.length, p.awaiting.patience)
decreasing_by exact step_decreases (by assumption)

end PulledRecognition

/-- Recognition comes to the same whether the tokens are pulled one by one, with one list for all
diagnostics, or all read first. Every token is pulled once, and none but the end of the text again.
The diagnostics of spelling are those of the tokens alone, and all the rest hangs on the tokens that
are no comments. -/
theorem compile_eq_pulled (file text : String) :
    let c := compile file text
    let p := (PulledRecognition.start file text).run
    (c.tree = ((SyntaxBuilder.start (.empty 0) file).addAll p.constructs).tree ∧
      c.symbols = declaredSymbols file p.constructs ∧ c.diagnostics = p.source.diagnostics) ∧
    (∃ init last again, last.isEndOfFile = true ∧ tokenize file text = init ++ [last] ∧
      p.pulled = init ++ last :: List.replicate again last) ∧
    c.diagnostics.filter Diagnostic.isLexical = spellingFaults file text ∧
    ∀ other, significant (tokenize file other) = significant (tokenize file text) →
      let d := compile file other
      d.tree = c.tree ∧ d.root = c.root ∧ d.symbols = c.symbols ∧
        d.diagnostics.filter (!·.isLexical) = c.diagnostics.filter (!·.isLexical) := by
  intro c p
  obtain ⟨hconstructs, hdiagnostics, hpulled⟩ := (PulledRecognition.start file text).run_finishes
  have hrecognized : p.constructs = (recognize (Lexer.start file text).readings).constructs :=
    hconstructs
  refine ⟨⟨?_, ?_, hdiagnostics.symm⟩, hpulled, (filter_blamed _ _).1, ?_⟩
  · rw [hrecognized]
    rfl
  · rw [hrecognized]
    rfl
  · intro other hsame d
    obtain ⟨hsame', hfaults⟩ := Awaiting.function.eq_of_significant_eq hsame
    have hbuilt : (recognize (Lexer.start file other).readings).constructs =
        (recognize (Lexer.start file text).readings).constructs := hsame'
    refine ⟨?_, ?_, ?_, ?_⟩
    · simp only [d, c, compile, compileInto, hbuilt]
    · simp only [d, c, compile, compileInto, hbuilt]
    · simp only [d, c, compile, compileInto, hbuilt]
    · exact (filter_blamed _ _).2.trans (hfaults.trans (filter_blamed _ _).2.symm)

/-- Two texts that differ in nothing but their comments. -/
theorem compile_eq_pulled_comments :
    let text := "fun\n// \"\n//\ng(x"
    let other := "fun\n/* f\n*/\ng(x"
    significant (tokenize "main.sls" other) = significant (tokenize "main.sls" text) ∧
    let c := compile "main.sls" text
    let d := compile "main.sls" other
    d.tree = c.tree ∧ d.root = c.root ∧ d.symbols = c.symbols ∧
      d.diagnostics.filter (!·.isLexical) = c.diagnostics.filter (!·.isLexical) := by
  intro text other
  have hsame : significant (tokenize "main.sls" other) = significant (tokenize "main.sls" text) := by
    decide +kernel
  exact ⟨hsame, (compile_eq_pulled "main.sls" text).2.2.2 other hsame⟩

end SlsLang
