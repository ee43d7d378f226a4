import SlsLang.Proofs.CommentClose
import SlsLang.Proofs.Lists
import SlsLang.Proofs.NumberScan
import SlsLang.Proofs.QuotedContents

namespace SlsLang

/-- A character or an escape as it is spelled between single quotes, and its value. -/
inductive CharacterSpelling : List Char → List Char → Prop
  | plain {c : Char} (backslash : c ≠ '\\') (newline : c ≠ '\n') : CharacterSpelling [c] [c]
  | escape {c : Char} (newline : c ≠ '\n') : CharacterSpelling ['\\', c] (unescape c)

namespace Lexeme

structure IsSingle (l : Lexeme) (p : Char → Bool) : Prop where
  one : ∃ c, p c = true ∧ l.slice = [c]
  text : l.text = String.ofList l.slice
  faultless : l.faults = []

/-- A run that nothing ends before `after`. -/
structure IsWord (l : Lexeme) (after : List Char) : Prop where
  chars : ∀ c ∈ l.slice, isWordChar c = true
  longest : ∀ c ∈ after.head?, isWordChar c = false
  text : l.text = String.ofList l.slice

structure IsNumber (l : Lexeme) (after : List Char) : Prop where
  chars : ∀ c ∈ l.slice, isNumberChar c = true
  longest : ∀ c ∈ after.head?, isNumberChar c = false
  text : l.text = String.ofList (l.slice.filter (· != '\''))
  faults : ∀ f ∈ l.faults,
    f = .leadingSeparator ∨ f = .trailingSeparator ∨ ∃ c, f = .invalidFloatSuffix c

structure IsLineComment (l : Lexeme) (after : List Char) : Prop where
  opening : ['/', '/'] <+: l.slice
  newline : '\n' ∉ l.slice
  lineEnd : AtLineEnd after
  returns : ∃ n, l.slice = l.text.toList ++ List.replicate n '\r'
  text : l.text.toList.getLast? ≠ some '\r'
  faultless : l.faults = []

/-- A block comment ends with its first close or with the text, and only that is a fault. -/
inductive IsBlockComment (l : Lexeme) : List Char → Prop
  | closed {body after : List Char} (slice : l.slice = '/' :: '*' :: (body ++ ['*', '/']))
      (first : ¬ HasClose (body ++ ['*'])) (text : l.text = String.ofList l.slice)
      (faultless : l.faults = []) : IsBlockComment l after
  | unclosed {body : List Char} (slice : l.slice = '/' :: '*' :: body) (first : ¬ HasClose body)
      (text : l.text = String.ofList l.slice) (fault : l.faults = [.unterminatedComment]) :
      IsBlockComment l []

inductive IsString (l : Lexeme) : List Char → Prop
  | closed {s v after : List Char} (contents : Contents s v) (slice : l.slice = '"' :: (s ++ ['"']))
      (text : l.text = String.ofList v) (faultless : l.faults = []) : IsString l after
  | line {s v after : List Char} (contents : Contents s v) (lineEnd : AtLineEnd after)
      (slice : l.slice = '"' :: s) (text : l.text = String.ofList v)
      (fault : l.faults = [.unterminatedString]) : IsString l after
  | backslash {s v after : List Char} (contents : Contents s v) (lineEnd : AtLineEnd after)
      (slice : l.slice = '"' :: (s ++ ['\\'])) (text : l.text = String.ofList (v ++ ['\\']))
      (fault : l.faults = [.unterminatedString]) : IsString l after

inductive IsCharacter (l : Lexeme) : List Char → Prop
  | empty {after : List Char} (lineEnd : AtLineEnd after) (slice : l.slice = ['\''])
      (text : l.text = "") (fault : l.faults = [.endOfLineInCharacter]) : IsCharacter l after
  | closed {s v after : List Char} (spelling : CharacterSpelling s v)
      (slice : l.slice = '\'' :: (s ++ ['\''])) (text : l.text = String.ofList v)
      (faultless : l.faults = []) : IsCharacter l after
  | unclosed {s v after : List Char} (spelling : CharacterSpelling s v)
      (slice : l.slice = '\'' :: s) (next : after.head? ≠ some '\'')
      (text : l.text = String.ofList v) (fault : l.faults = [.unterminatedCharacter]) :
      IsCharacter l after
  | backslash {after : List Char} (lineEnd : AtLineEnd after) (slice : l.slice = ['\'', '\\'])
      (text : l.text = "\\") (fault : l.faults = [.unterminatedCharacter]) : IsCharacter l after

/-- What the kind of a lexeme says of its slice, its text and its faults, where `after` is the text
left behind the slice. -/
def Promise (l : Lexeme) (after : List Char) : Prop :=
  match l.kind with
  | .operator => l.IsSingle isOperator
  | .punctuation => l.IsSingle isPunctuation
  | .invalid => l.IsSingle isControl
  | .keyword => l.IsWord after ∧ isKeyword l.text = true ∧ l.faults = []
  | .identifier => l.IsWord after ∧ isKeyword l.text = false ∧
      l.faults = if isIdentifier l.text then [] else [.invalidIdentifier]
  | .comment => l.IsLineComment after ∨ l.IsBlockComment after
  | .double | .float | .int32 | .int64 => l.IsNumber after
  | .string => l.IsString after ∧ '\n' ∉ l.slice
  | .character => l.IsCharacter after ∧ '\n' ∉ l.slice
  | .endOfFile => l.slice = [] ∧ l.text = "" ∧ l.faults = [] ∧ after = []
  | .boolean => False

/-- The slice stands at the head of the text, and the promise holds for what is left. -/
def KeptOn (l : Lexeme) (cs : List Char) : Prop := ∃ after, cs = l.slice ++ after ∧ l.Promise after

end Lexeme

open Lexeme

theorem kind_blockComment (r : List Char) : (blockComment r).kind = .comment := by
  unfold blockComment
  split <;> rfl

theorem kind_closeCharacter (s v r : List Char) : (closeCharacter s v r).kind = .character := by
  unfold closeCharacter
  split <;> rfl

theorem kind_characterConstant (r : List Char) : (characterConstant r).kind = .character := by
  unfold characterConstant
  split
  · rfl
  · rfl
  · split <;> exact kind_closeCharacter _ _ _
  · exact kind_closeCharacter _ _ _

theorem atLineEnd_dropWhile (cs : List Char) : AtLineEnd (cs.dropWhile (· != '\n')) := by
  cases hd : (cs.dropWhile (· != '\n')).head? with
  | none => exact .inl (List.head?_eq_none_iff.mp hd)
  | some c =>
    have hc := head?_dropWhile_eq_false c hd
    exact .inr (hd.trans (by simpa using hc))

theorem wordLexeme_keptOn (cs : List Char) : (wordLexeme cs).KeptOn cs := by
  have hword : ∀ kind faults, IsWord ⟨kind, cs.takeWhile isWordChar,
      String.ofList (cs.takeWhile isWordChar), faults⟩ (cs.dropWhile isWordChar) := fun _ _ =>
    ⟨fun c hc => List.mem_takeWhile_imp hc, head?_dropWhile_eq_false, rfl⟩
  refine ⟨cs.dropWhile isWordChar, by rw [wordLexeme_slice, List.takeWhile_append_dropWhile], ?_⟩
  simp only [wordLexeme]
  split
  next hk => exact ⟨hword _ _, hk, rfl⟩
  next hk =>
    have hk' := Bool.eq_false_iff.mpr hk
    split
    next hi => exact ⟨hword _ _, hk', (if_pos hi).symm⟩
    next hi => exact ⟨hword _ _, hk', (if_neg hi).symm⟩

theorem numberKind_cases (digits : List Char) : numberKind digits = .float ∨
    numberKind digits = .double ∨ numberKind digits = .int64 ∨ numberKind digits = .int32 := by
  unfold numberKind
  split
  · exact .inl rfl
  split
  · exact .inr (.inl rfl)
  split
  · exact .inr (.inr (.inl rfl))
  · exact .inr (.inr (.inr rfl))

theorem promise_of_isNumber {l : Lexeme} {digits after : List Char} (hk : l.kind = numberKind digits)
    (h : l.IsNumber after) : l.Promise after := by
  unfold Promise
  rcases numberKind_cases digits with hn | hn | hn | hn <;> rw [hk, hn] <;> exact h

theorem numberConstant_keptOn (cs : List Char) : (numberConstant cs).KeptOn cs := by
  rw [numberConstant_eq]
  refine ⟨cs.dropWhile isNumberChar, List.takeWhile_append_dropWhile.symm,
    promise_of_isNumber rfl
      ⟨fun c hc => List.mem_takeWhile_imp hc, head?_dropWhile_eq_false, rfl, ?_⟩⟩
  intro f hf
  rcases List.mem_append.mp hf with hf | hf
  · rcases List.mem_append.mp hf with hf | hf
    · exact .inl (eq_of_mem_frontSeparator hf)
    · obtain ⟨c, _, rfl⟩ := List.mem_map.mp hf
      exact .inr (.inr ⟨c, rfl⟩)
  · exact .inr (.inl (eq_of_mem_endSeparator hf))

theorem lineComment_keptOn (r : List Char) :
    (lineComment ('/' :: '/' :: r)).KeptOn ('/' :: '/' :: r) := by
  obtain ⟨hr, hl⟩ := dropTrailingReturns_append (('/' :: '/' :: r).takeWhile (· != '\n'))
  refine ⟨('/' :: '/' :: r).dropWhile (· != '\n'),
    by rw [lineComment, List.takeWhile_append_dropWhile], .inl ?_⟩
  refine ⟨⟨r.takeWhile (· != '\n'), by simp [lineComment]⟩, ?_, atLineEnd_dropWhile _, ?_, ?_, rfl⟩
  · intro hn
    simpa using List.mem_takeWhile_imp hn
  · simpa [lineComment] using hr
  · simpa [lineComment] using hl

theorem blockComment_keptOn (r : List Char) : (blockComment r).KeptOn ('/' :: '*' :: r) := by
  unfold blockComment
  split
  next slice hs =>
    obtain ⟨body, after, rfl, rfl, hn⟩ := throughClose?_some hs
    exact ⟨after, by simp [Lexeme.verbatim], .inr (.closed (by simp [Lexeme.verbatim]) hn rfl rfl)⟩
  next hs =>
    exact ⟨[], by simp [Lexeme.verbatim], .inr (.unclosed rfl (throughClose?_none hs) rfl rfl)⟩

theorem stringConstant_keptOn (r : List Char) : (stringConstant r).KeptOn ('"' :: r) := by
  have h := stringContents_stringEnd ['"'] [] r
  unfold stringConstant
  generalize stringContents ['"'] [] r = q at h ⊢
  cases h with
  | @closed s v after hc hq =>
    refine ⟨after, by simp [hq], .closed hc ?_ ?_ ?_, ?_⟩ <;> simp [hq, contents_newline hc]
  | @line s v after hc hl hq =>
    refine ⟨after, by simp [hq], .line hc hl ?_ ?_ ?_, ?_⟩ <;> simp [hq, contents_newline hc]
  | @backslash s v after hc hl hq =>
    refine ⟨after, by simp [hq], .backslash hc hl ?_ ?_ ?_, ?_⟩ <;> simp [hq, contents_newline hc]

theorem characterSpelling_newline {s v : List Char} (h : CharacterSpelling s v) : '\n' ∉ s := by
  cases h with
  | plain _ hn => simp [Ne.symm hn]
  | escape hn => simp [Ne.symm hn]

theorem closeCharacter_keptOn {s v : List Char} (h : CharacterSpelling s v) (r : List Char) :
    (closeCharacter s v r).KeptOn ('\'' :: (s ++ r)) := by
  have hn := characterSpelling_newline h
  unfold closeCharacter
  split
  next after => exact ⟨after, by simp, .closed h rfl rfl rfl, by simp [hn]⟩
  next hr =>
    refine ⟨r, by simp, .unclosed h rfl ?_ rfl rfl, by simp [hn]⟩
    intro hh
    obtain ⟨after, rfl⟩ := List.head?_eq_some_iff.mp hh
    exact hr after rfl

theorem closeCharacter_backslash_keptOn {r : List Char} (h : AtLineEnd r) :
    (closeCharacter ['\\'] ['\\'] r).KeptOn ('\'' :: '\\' :: r) := by
  have hc : closeCharacter ['\\'] ['\\'] r =
      ⟨.character, ['\'', '\\'], "\\", [.unterminatedCharacter]⟩ := by
    rcases h with rfl | hr
    · rfl
    · obtain ⟨after, rfl⟩ := List.head?_eq_some_iff.mp hr
      rfl
  rw [hc]
  exact ⟨r, rfl, .backslash h rfl rfl rfl, by simp⟩

theorem characterConstant_keptOn (r : List Char) : (characterConstant r).KeptOn ('\'' :: r) := by
  unfold characterConstant
  split
  next => exact ⟨[], rfl, .empty (.inl rfl) rfl rfl rfl, by simp⟩
  next r => exact ⟨'\n' :: r, rfl, .empty (.inr rfl) rfl rfl rfl, by simp⟩
  next c r =>
    split
    next hn => exact closeCharacter_backslash_keptOn (.inr (by simp [hn]))
    next hn => exact closeCharacter_keptOn (.escape hn) r
  next c r hn hb =>
    by_cases hc : c = '\\'
    · subst c
      have hr : r = [] := by
        cases r with
        | nil => rfl
        | cons d r => exact (hb d r rfl rfl).elim
      exact closeCharacter_backslash_keptOn (.inl hr)
    · exact closeCharacter_keptOn (.plain hc (by simpa using hn)) r

theorem plainLexeme_keptOn (c : Char) (r : List Char) : (plainLexeme c r).KeptOn (c :: r) := by
  unfold plainLexeme
  split
  next h => exact ⟨r, rfl, ⟨c, h, rfl⟩, rfl, rfl⟩
  split
  next h => exact ⟨r, rfl, ⟨c, h, rfl⟩, rfl, rfl⟩
  split
  next => exact numberConstant_keptOn _
  split
  next h => exact ⟨r, rfl, ⟨c, h, rfl⟩, rfl, rfl⟩
  next => exact wordLexeme_keptOn _

/-- Every lexeme keeps the promise of its kind, on any text. -/
theorem nextLexeme_keptOn (cs : List Char) : (nextLexeme cs).KeptOn cs := by
  unfold nextLexeme
  split
  next => exact ⟨[], rfl, rfl, rfl, rfl, rfl⟩
  next r => exact lineComment_keptOn r
  next r => exact blockComment_keptOn r
  next r => exact stringConstant_keptOn r
  next r =>
    split
    · exact numberConstant_keptOn _
    · exact characterConstant_keptOn r
  next c r _ _ _ _ => exact plainLexeme_keptOn c r

end SlsLang
