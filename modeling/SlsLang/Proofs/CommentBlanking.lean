import SlsLang.Proofs.Lookahead
import SlsLang.Proofs.RecognitionRelocation
import SlsLang.Proofs.Tiling

namespace SlsLang

open Lexeme

/-- What is left of a character that is written over: a newline stays. -/
def blankChar (c : Char) : Char := if c = '\n' then c else ' '

/-- A place without the text of its line. -/
def Place.bare (p : Place) : Place := { p with sourceLine := "" }

def Place.inFile (file : String) (p : Place) : Place := { p with file := file }

namespace Reading

/-- What a reading takes up, with spaces for a comment. -/
def blanked (r : Reading) : List Char :=
  r.gap ++ if r.token.isComment then r.lexeme.slice.map blankChar else r.lexeme.slice

def bare (r : Reading) : Reading := ⟨[], r.lexeme, r.place.bare⟩

end Reading

/-- A text in which every comment is written over with spaces. -/
def blankComments (text : String) : String :=
  let mark := if text.toList.head? = some '\ufeff' then ['\ufeff'] else []
  String.ofList (mark ++ (Lexer.start "" text).readings.flatMap Reading.blanked)

section Blanks

theorem blankChar_eq_newline {c : Char} : blankChar c = '\n' ↔ c = '\n' := by
  unfold blankChar
  split <;> simp_all

theorem isWhitespace_blankChar (c : Char) : isWhitespace (blankChar c) = true := by
  unfold blankChar
  split
  next h => subst h; decide
  next => decide

theorem map_blankChar_map_blankChar (cs : List Char) :
    (cs.map blankChar).map blankChar = cs.map blankChar := by
  rw [List.map_map]
  refine List.map_congr_left fun c _ => ?_
  by_cases h : c = '\n' <;> simp [blankChar, h]

theorem map_blankChar_append {xs ys : List Char} (h : xs.map blankChar = ys.map blankChar)
    (more : List Char) : (xs ++ more).map blankChar = (ys ++ more).map blankChar := by
  rw [List.map_append, List.map_append, h]

theorem count_map_blankChar (cs : List Char) : (cs.map blankChar).count '\n' = cs.count '\n' := by
  rw [List.count, List.countP_map]
  refine List.countP_congr fun c _ => ?_
  simp [blankChar_eq_newline]

theorem lastLine_map_blankChar (cs : List Char) :
    lastLine (cs.map blankChar) = (lastLine cs).map blankChar := by
  have hp : (· != '\n') ∘ blankChar = (· != '\n') := by
    funext c
    by_cases h : c = '\n' <;> simp [blankChar, h]
  rw [lastLine, ← List.map_reverse, List.takeWhile_map, hp, ← List.map_reverse, lastLine]

theorem Place.bare_between (file : String) {before before' : List Char}
    (h : before'.map blankChar = before.map blankChar) (after after' : List Char) :
    (Place.between file before' after').bare = (Place.between file before after).bare := by
  have hcount : before'.count '\n' = before.count '\n' := by
    rw [← count_map_blankChar, h, count_map_blankChar]
  have hlength : (lastLine before').length = (lastLine before).length := by
    have hlast := congrArg List.length (congrArg lastLine h)
    simpa [lastLine_map_blankChar] using hlast
  rw [between, between, hcount, hlength]
  rfl

end Blanks

namespace Reading

variable {file : String} {before after : List Char} {r : Reading}

theorem isComment_iff (r : Reading) : r.token.isComment = true ↔ r.lexeme.kind = .comment := by
  simp [token, Token.isComment]

theorem not_isComment_of_isLast (r : Reading) (h : r.isLast = true) : r.token.isComment = false := by
  simp [token, Token.isComment, (isLast_iff r).mp h]

theorem blanked_comment (h : r.token.isComment = true) :
    r.blanked = r.gap ++ r.lexeme.slice.map blankChar := by rw [blanked, if_pos h]

theorem blanked_of_not_comment (h : r.token.isComment = false) : r.blanked = r.chars := by
  rw [blanked, if_neg (by simp [h]), chars]

theorem map_blankChar_blanked (r : Reading) : r.blanked.map blankChar = r.chars.map blankChar := by
  unfold blanked chars
  split
  · rw [List.map_append, List.map_append, map_blankChar_map_blankChar]
  · rfl

theorem Stands.head?_comment (h : r.Stands file before after) (hc : r.token.isComment = true) :
    r.lexeme.slice.head? = some '/' := by
  have hp := h.promise
  rw [Promise, (isComment_iff r).mp hc] at hp
  rcases hp with hline | hblock
  · obtain ⟨rest, hrest⟩ := hline.opening
    rw [← hrest]
    rfl
  · cases hblock with
    | closed slice | unclosed slice => rw [slice]; rfl

theorem Stands.blanked_whitespace (h : r.Stands file before after) (hc : r.token.isComment = true) :
    ∀ c ∈ r.blanked, isWhitespace c = true := by
  rw [blanked_comment hc]
  refine List.forall_mem_append.mpr ⟨h.gap, List.forall_mem_map.mpr fun c _ => ?_⟩
  exact isWhitespace_blankChar c

theorem Stands.bare_between (h : r.Stands file before after) {before' : List Char}
    (hb : before'.map blankChar = before.map blankChar) (after' : List Char) :
    (⟨r.gap, r.lexeme, .between file (before' ++ r.gap) after'⟩ : Reading).bare = r.bare := by
  rw [bare, bare, h.place, Place.bare_between file (map_blankChar_append hb r.gap)]

/-- A reading that is no comment is made again in front of what ends it alike. -/
theorem Stands.endsAlike (h : r.Stands file before after) (hl : r.isLast = false)
    (hc : r.token.isComment = false) {after' : List Char} (ha : EndsAlike after after')
    {before' : List Char} {place : Place}
    (hplace : place = .between file (before' ++ r.gap) (r.lexeme.slice ++ after')) :
    (⟨r.gap, r.lexeme, place⟩ : Reading).Stands file before' after' := by
  have hk : (nextLexeme (r.lexeme.slice ++ after)).kind ≠ .comment := by
    rw [← h.lexeme, Ne, ← isComment_iff, hc]
    simp
  have hread := nextLexeme_endsAlike ha (h.slice_ne_nil hl) (congrArg Lexeme.slice h.lexeme.symm) hk
  exact h.of_read hl (h.lexeme.trans hread.symm) hplace

end Reading

theorem map_bare_readingsBehind (gap : List Char) (rs : List Reading) :
    (readingsBehind gap rs).map Reading.bare = rs.map Reading.bare := by
  cases rs <;> rfl

namespace Reads

variable {file : String} {before cs : List Char} {rs : List Reading}

theorem promise (h : Reads file before cs rs) : ∀ r ∈ rs, ∃ after, r.lexeme.Promise after := by
  induction h with
  | last hr _ => exact List.forall_mem_singleton.mpr ⟨[], hr.promise⟩
  | step hr _ _ ih => exact List.forall_mem_cons.mpr ⟨⟨_, hr.promise⟩, ih⟩

theorem inFile (h : Reads file before cs rs) (other : String) :
    Reads other before cs (rs.map (Reading.relocate (.inFile other))) := by
  have hstands : ∀ {before after : List Char} {r : Reading}, r.Stands file before after →
      (r.relocate (.inFile other)).Stands other before after := by
    intro before after r hr
    exact ⟨hr.gap, hr.start, hr.lexeme, hr.promise, congrArg (Place.inFile other) hr.place⟩
  induction h with
  | last hr hl => exact .last (hstands hr) hl
  | step hr hl _ ih => exact .step (hstands hr) hl ih

/-- A text with its comments written over ends a lexeme before it like the text itself. -/
theorem endsAlike (h : Reads file before cs rs) : EndsAlike cs (rs.flatMap Reading.blanked) := by
  cases h with
  | @last _ r hr hl =>
    have hc := r.not_isComment_of_isLast hl
    rw [List.flatMap_singleton, Reading.blanked_of_not_comment hc]
    exact .inl rfl
  | @step _ after r rs hr hl _ =>
    rw [List.flatMap_cons]
    cases hc : r.token.isComment with
    | false =>
      have hne : r.chars ≠ [] := by simp [Reading.chars, hr.slice_ne_nil hl]
      rw [Reading.blanked_of_not_comment hc]
      exact .inl (by rw [List.head?_append_of_ne_nil _ hne, List.head?_append_of_ne_nil _ hne])
    | true =>
      obtain ⟨slice, hslice⟩ := List.head?_eq_some_iff.mp (hr.head?_comment hc)
      rw [Reading.blanked_comment hc, Reading.chars, hslice]
      cases r.gap with
      | nil => exact .inr ⟨rfl, rfl⟩
      | cons c gap => exact .inl rfl

/-- A text with its comments written over is read as the text is, without the comments. -/
theorem blanked (h : Reads file before cs rs) {before' : List Char}
    (hb : before'.map blankChar = before.map blankChar) :
    ∃ rs', Reads file before' (rs.flatMap Reading.blanked) rs' ∧
      rs'.map Reading.bare = (rs.filter (!·.token.isComment)).map Reading.bare := by
  -- The two runs may have read different characters, but newlines at the same points: what is left
  -- of a comment becomes whitespace before the next reading, and every other lexeme is read again.
  induction h generalizing before' with
  | @last before r hr hl =>
    let r' : Reading := ⟨r.gap, r.lexeme, .between file (before' ++ r.gap) (r.lexeme.slice ++ [])⟩
    have hc := r.not_isComment_of_isLast hl
    have hstands : r'.Stands file before' [] := ⟨hr.gap, hr.start, hr.lexeme, hr.promise, rfl⟩
    refine ⟨[r'], ?_, ?_⟩
    · rw [List.flatMap_singleton, Reading.blanked_of_not_comment hc]
      exact .last hstands hl
    · rw [List.filter_cons_of_pos (by simp [hc]), List.map_singleton, hr.bare_between hb]
      rfl
  | @step before after r rs hr hl hrest ih =>
    rw [List.flatMap_cons]
    cases hc : r.token.isComment with
    | false =>
      obtain ⟨rs', hreads, hbare⟩ := ih (map_blankChar_append hb r.chars)
      let r' : Reading := ⟨r.gap, r.lexeme,
        .between file (before' ++ r.gap) (r.lexeme.slice ++ rs.flatMap Reading.blanked)⟩
      have hstands : r'.Stands file before' (rs.flatMap Reading.blanked) :=
        hr.endsAlike hl hc hrest.endsAlike rfl
      refine ⟨r' :: rs', ?_, ?_⟩
      · rw [Reading.blanked_of_not_comment hc]
        exact .step hstands hl hreads
      · rw [List.filter_cons_of_pos (by simp [hc]), List.map_cons, List.map_cons, hbare,
          hr.bare_between hb]
    | true =>
      have hover : (before' ++ r.blanked).map blankChar = (before ++ r.chars).map blankChar := by
        rw [List.map_append, List.map_append, hb, r.map_blankChar_blanked]
      obtain ⟨rs', hreads, hbare⟩ := ih hover
      refine ⟨readingsBehind r.blanked rs', hreads.behind (hr.blanked_whitespace hc), ?_⟩
      rw [List.filter_cons_of_neg (by simp [hc]), map_bare_readingsBehind, hbare]

end Reads

theorem flatMap_blanked_readings (file other text : String) :
    (Lexer.start file text).readings.flatMap Reading.blanked =
      (Lexer.start other text).readings.flatMap Reading.blanked := by
  have hother := readings_of_reads ((reads_start file text).inFile other)
  rw [← Lexer.start_eq_between] at hother
  rw [hother, List.flatMap_map]
  rfl

theorem sourceChars_blankComments (file text : String) :
    sourceChars (blankComments text) =
      (Lexer.start file text).readings.flatMap Reading.blanked := by
  have halike := (reads_start file text).endsAlike
  rw [flatMap_blanked_readings file ""] at halike ⊢
  rcases toList_eq_sourceChars text with ⟨hmark, htext⟩ | htext
  · rw [← htext] at halike
    have hblank : (blankComments text).toList =
        (Lexer.start "" text).readings.flatMap Reading.blanked := by
      simp [blankComments, hmark]
    rw [sourceChars, hblank, if_neg (halike.stopsAlike.head_ne (by decide) hmark)]
  · have hblank : (blankComments text).toList =
        '\ufeff' :: (Lexer.start "" text).readings.flatMap Reading.blanked := by
      simp [blankComments, htext]
    rw [sourceChars, hblank]
    rfl

theorem readings_blankComments (file text : String) :
    (Lexer.start file (blankComments text)).readings.map Reading.bare =
      ((Lexer.start file text).readings.filter (!·.token.isComment)).map Reading.bare := by
  have hnothing : ([] : List Char).map blankChar = ([] : List Char).map blankChar := rfl
  obtain ⟨rs, hreads, hbare⟩ := (reads_start file text).blanked hnothing
  rw [← sourceChars_blankComments] at hreads
  rw [Lexer.start_eq_between, readings_of_reads hreads, hbare]

theorem moves_bare : Moves Place.bare Reading.bare := by
  refine ⟨fun _ => rfl, fun r => ?_⟩
  rw [Reading.diagnostics, Reading.diagnostics, List.map_map]
  rfl

/-- A diagnostic that blanking leaves as it is: any but one of a comment. -/
def Diagnostic.stays (d : Diagnostic) : Bool := d.fault != .lexical .unterminatedComment

theorem stays_of_not_isLexical {d : Diagnostic} (h : d.isLexical = false) : d.stays = true := by
  rw [Diagnostic.stays, bne_iff_ne]
  intro hf
  simp [Diagnostic.isLexical, hf, Fault.isLexical] at h

/-- All that can be wrong with the spelling of a comment is that nothing closes it. -/
theorem Lexeme.Promise.faults_of_comment {l : Lexeme} {after : List Char} (h : l.Promise after)
    (hk : l.kind = .comment) : ∀ f ∈ l.faults, f = .unterminatedComment := by
  rw [Promise, hk] at h
  rcases h with hline | hblock
  · simp [hline.faultless]
  · cases hblock with
    | closed _ _ _ faultless => simp [faultless]
    | unclosed _ _ _ fault => simp [fault]

theorem stays_of_promise {r : Reading} {after : List Char} (h : r.lexeme.Promise after) :
    ∀ d ∈ r.diagnostics, d.stays = !r.token.isComment := by
  intro d hd
  obtain ⟨f, hf, rfl⟩ := List.mem_map.mp hd
  cases hc : r.token.isComment with
  | true =>
    rw [h.faults_of_comment ((Reading.isComment_iff r).mp hc) f hf]
    rfl
  | false =>
    have hne : f ≠ .unterminatedComment := by
      rintro rfl
      have hk := (h.unterminated_iff.mp hf).1
      rw [← Reading.isComment_iff, hc] at hk
      simp at hk
    simpa [Diagnostic.stays] using hne

theorem blamed_filter {rs : List Reading} (h : ∀ r ∈ rs, ∃ after, r.lexeme.Promise after)
    (a : Awaiting) : blamed a (rs.filter (!·.token.isComment)) =
      (blamed a rs).filter Diagnostic.stays := by
  induction rs generalizing a with
  | nil => rfl
  | cons r rs ih =>
    obtain ⟨⟨after, hr⟩, hrs⟩ := List.forall_mem_cons.mp h
    have hspelling := stays_of_promise hr
    rw [blamed_cons, List.filter_append, List.filter_append]
    cases hc : r.token.isComment with
    | true =>
      have hgone : r.diagnostics.filter Diagnostic.stays = [] :=
        List.filter_eq_nil_iff.mpr fun d hd => by simp [hspelling d hd, hc]
      rw [List.filter_cons_of_neg (by simp [hc]), ih hrs, hgone, a.respond_comment hc]
      rfl
    | false =>
      have hkept : r.diagnostics.filter Diagnostic.stays = r.diagnostics :=
        List.filter_eq_self.mpr fun d hd => by simp [hspelling d hd, hc]
      have horder : (a.respond r.token).faults.filter Diagnostic.stays =
          (a.respond r.token).faults := List.filter_eq_self.mpr fun d hd =>
        stays_of_not_isLexical (isLexical_of_blames (a.respond_answers r.token).blames hd)
      rw [List.filter_cons_of_pos (by simp [hc]), blamed_cons, ih hrs, hkept, horder]

theorem map_token_filter (rs : List Reading) :
    (rs.filter (!·.token.isComment)).map Reading.token = significant (rs.map Reading.token) := by
  rw [significant, List.filter_map]
  rfl

theorem recognize_blankComments (file text : String) :
    let r := recognize (Lexer.start file text).readings
    let r' := recognize (Lexer.start file (blankComments text)).readings
    r'.constructs.map (Construct.relocate .bare) = r.constructs.map (Construct.relocate .bare) ∧
      r'.diagnostics.map (Diagnostic.relocate .bare) =
        (r.diagnostics.filter Diagnostic.stays).map (Diagnostic.relocate .bare) := by
  intro r r'
  let kept := (Lexer.start file text).readings.filter (!·.token.isComment)
  have hconstructs : (recognize kept).constructs = r.constructs := by
    have hsignificant := (Awaiting.function.constructs_faults_significant
      ((Lexer.start file text).readings.map Reading.token)).1
    rwa [← map_token_filter] at hsignificant
  have hdiagnostics : (recognize kept).diagnostics = r.diagnostics.filter Diagnostic.stays :=
    blamed_filter (reads_start file text).promise .function
  have hreadings := congrArg recognize (readings_blankComments file text)
  rw [moves_bare.recognize, moves_bare.recognize] at hreadings
  rw [← hconstructs, ← hdiagnostics]
  exact ⟨congrArg Recognition.constructs hreadings, congrArg Recognition.diagnostics hreadings⟩

theorem dump_bare (tree : SyntaxTree) (root : Handle) :
    dump (tree.mapPayload (Token.relocate .bare)) root = dump tree root := by
  rw [dump, Forest.descendants_mapPayload]
  simp only [Forest.get?_mapPayload, Option.map_map]
  rfl

/-- Comments are whitespace. Written over with spaces they are read as none, everything else is read
and compiled as it was, and no diagnostic is lost but that of a comment without a close. Only the
texts of source lines tell the difference. -/
theorem compile_blankComments (file text : String) :
    let blank := blankComments text
    (tokenize file blank).map (Token.relocate .bare) =
      (significant (tokenize file text)).map (Token.relocate .bare) ∧
    let c := compile file text
    let d := compile file blank
    d.tree.mapPayload (Token.relocate .bare) = c.tree.mapPayload (Token.relocate .bare) ∧
    d.root = c.root ∧ d.symbols = c.symbols ∧ d.notices = c.notices ∧ d.dump = c.dump ∧
    d.diagnostics.map (Diagnostic.relocate .bare) =
      (c.diagnostics.filter (·.fault != .lexical .unterminatedComment)).map
        (Diagnostic.relocate .bare) := by
  intro blank
  have htokens : (tokenize file blank).map (Token.relocate .bare) =
      (significant (tokenize file text)).map (Token.relocate .bare) := by
    have hreadings := congrArg (List.map Reading.token) (readings_blankComments file text)
    rwa [moves_bare.map_token, moves_bare.map_token, map_token_filter] at hreadings
  refine ⟨htokens, ?_⟩
  intro c d
  obtain ⟨hconstructs, hdiagnostics⟩ := recognize_blankComments file text
  have htree : d.tree.mapPayload (Token.relocate .bare) = c.tree.mapPayload (Token.relocate .bare) := by
    simp only [d, c, compile, compileInto, SyntaxBuilder.tree_addAll_relocate]
    rw [hconstructs]
  have hroot : d.root = c.root :=
    (SyntaxBuilder.root_addAll _ _).trans (SyntaxBuilder.root_addAll _ _).symm
  refine ⟨htree, hroot, ?_, ?_, ?_, hdiagnostics⟩
  · have hsymbols := congrArg (declaredSymbols file) hconstructs
    rwa [declaredSymbols_relocate, declaredSymbols_relocate] at hsymbols
  · have hlines := congrArg (List.flatMap Construct.notices) hconstructs
    rw [flatMap_notices_relocate, flatMap_notices_relocate] at hlines
    have hnotices := congrArg unlines hlines
    rwa [← notices_compileInto 0, ← notices_compileInto 0] at hnotices
  · rw [Compilation.dump, Compilation.dump, ← dump_bare, htree, dump_bare, hroot]

example : blankComments "\ufeffx/*\n*/'//y // z" = "\ufeffx  \n  '//y     " := by decide +kernel

end SlsLang
