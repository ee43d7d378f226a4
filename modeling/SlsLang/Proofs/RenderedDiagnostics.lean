import SlsLang.Proofs.DelimitedText
import SlsLang.Proofs.TokenPlaces

namespace SlsLang

section OneLine

theorem dropReturn_subset (cs : List Char) : dropReturn cs ⊆ cs := by
  unfold dropReturn
  split
  · exact List.dropLast_subset cs
  · exact List.Subset.refl cs

theorem newline_not_mem_lineAcross (before after : List Char) : '\n' ∉ lineAcross before after := by
  have hline : '\n' ∉ lastLine before ++ after.takeWhile (· != '\n') := by
    intro h
    rcases List.mem_append.mp h with h | h
    · exact newline_not_mem_lastLine before h
    · simpa using List.mem_takeWhile_imp h
  unfold lineAcross
  split
  · exact fun h => hline (dropReturn_subset _ h)
  · exact hline

theorem faults_closeCharacter (spelling value rest : List Char) (mark : Char) :
    .invalidFloatSuffix mark ∉ (closeCharacter spelling value rest).faults := by
  unfold closeCharacter
  split <;> simp

theorem faults_characterConstant (cs : List Char) (mark : Char) :
    .invalidFloatSuffix mark ∉ (characterConstant cs).faults := by
  unfold characterConstant
  split
  · simp
  · simp
  · split <;> exact faults_closeCharacter _ _ _ _
  · exact faults_closeCharacter _ _ _ _

theorem mark_of_mem_faults_numberConstant {cs : List Char} {mark : Char}
    (h : .invalidFloatSuffix mark ∈ (numberConstant cs).faults) : mark = '.' := by
  simp only [numberConstant_eq, List.mem_append] at h
  rcases h with (h | h) | h
  · cases eq_of_mem_frontSeparator h
  · obtain ⟨c, hc, hmark⟩ := List.mem_map.mp h
    obtain rfl : c = mark := by simpa using hmark
    simpa using (List.mem_filter.mp hc).2
  · cases eq_of_mem_endSeparator h

/-- A mark that is one too many in a constant is a point. -/
theorem mark_of_mem_faults {cs : List Char} {mark : Char}
    (h : .invalidFloatSuffix mark ∈ (nextLexeme cs).faults) : mark = '.' := by
  unfold nextLexeme at h
  split at h
  next => simp [Lexeme.endOfFile] at h
  next => simp [lineComment] at h
  next =>
    unfold blockComment at h
    split at h <;> simp [Lexeme.verbatim] at h
  next =>
    simp only [stringConstant] at h
    split at h <;> simp at h
  next =>
    split at h
    · exact mark_of_mem_faults_numberConstant h
    · exact (faults_characterConstant _ _ h).elim
  next =>
    unfold plainLexeme at h
    split at h
    · simp [Lexeme.verbatim] at h
    split at h
    · simp [Lexeme.verbatim] at h
    split at h
    · exact mark_of_mem_faults_numberConstant h
    split at h
    · simp [Lexeme.verbatim] at h
    · simp only [wordLexeme] at h
      split_ifs at h <;> simp [Lexeme.verbatim] at h

theorem newline_not_mem_message {cs : List Char} {f : LexicalFault}
    (h : f ∈ (nextLexeme cs).faults) : '\n' ∉ f.message.toList := by
  cases f with
  | invalidFloatSuffix mark =>
    obtain rfl := mark_of_mem_faults h
    decide +kernel
  | unterminatedComment | unterminatedString | unterminatedCharacter | endOfLineInCharacter
  | invalidIdentifier | leadingSeparator | trailingSeparator => decide +kernel

theorem SyntaxFault.newline_not_mem_message (f : SyntaxFault) : '\n' ∉ f.message.toList := by
  cases f <;> decide +kernel

end OneLine

namespace Diagnostic

/-- A diagnostic in whose lines nothing breaks off a line, and whose caret stands under a column. -/
structure Printable (d : Diagnostic) : Prop where
  header : '\n' ∉ d.header.toList
  sourceLine : '\n' ∉ d.place.sourceLine.toList
  column : 1 ≤ d.place.column

/-- The three lines that a diagnostic of a file is worth: what is wrong and where, the line it points
into, and a caret under the column. -/
def block (file : String) (d : Diagnostic) : List (List Char) :=
  [(file ++ ":" ++ toString d.place.line ++ ":" ++ toString d.place.column ++ ": error: " ++
      d.message).toList,
    d.place.sourceLine.toList, List.replicate (d.place.column - 1) ' ' ++ ['^']]

theorem toList_caretLine (d : Diagnostic) :
    d.caretLine.toList = List.replicate (d.place.column - 1) ' ' ++ ['^'] := by
  simp [caretLine]

theorem lines_eq_block {file : String} {d : Diagnostic} (h : d.place.file = file) :
    d.lines.map String.toList = d.block file := by
  simp [lines, block, header, Place.text, toList_caretLine, h]

theorem splitOn_render {ds : List Diagnostic} (h : ∀ d ∈ ds, d.Printable) :
    (render ds).toList.splitOn '\n' = ds.flatMap (fun d => d.lines.map String.toList) ++ [[]] := by
  have hlines : ∀ l ∈ ds.flatMap lines, '\n' ∉ l.toList := by
    intro l hl
    obtain ⟨d, hd, hl⟩ := List.mem_flatMap.mp hl
    simp only [lines, List.mem_cons, List.not_mem_nil, or_false] at hl
    rcases hl with rfl | rfl | rfl
    · exact (h d hd).header
    · exact (h d hd).sourceLine
    · simp [toList_caretLine]
  rw [render, splitOn_unlines hlines, List.map_flatMap]

/-- What can be told of a diagnostic from its three lines. -/
def shown (d : Diagnostic) : String × String × Nat := (d.header, d.place.sourceLine, d.place.column)

theorem Printable.shown_eq {d e : Diagnostic} (hd : d.Printable) (he : e.Printable)
    (hheader : d.header.toList = e.header.toList)
    (hsource : d.place.sourceLine.toList = e.place.sourceLine.toList)
    (hcaret : d.caretLine.toList = e.caretLine.toList) : d.shown = e.shown := by
  rw [toList_caretLine, toList_caretLine] at hcaret
  have hspaces : d.place.column - 1 = e.place.column - 1 := by
    simpa using congrArg List.length hcaret
  have hcolumn : d.place.column = e.place.column := by
    have hfirst := hd.column
    have hfirst' := he.column
    omega
  rw [shown, shown, String.toList_injective hheader, String.toList_injective hsource, hcolumn]

/-- A rendered text tells how many diagnostics there are, and what each of them shows. -/
theorem shown_of_render_eq {ds es : List Diagnostic} (hds : ∀ d ∈ ds, d.Printable)
    (hes : ∀ e ∈ es, e.Printable) (h : render ds = render es) : ds.map shown = es.map shown := by
  have hsplit : ds.flatMap (fun d => d.lines.map String.toList) =
      es.flatMap (fun e => e.lines.map String.toList) := by
    have hlines := congrArg (fun text : String => text.toList.splitOn '\n') h
    simp only [splitOn_render hds, splitOn_render hes] at hlines
    exact List.append_cancel_right hlines
  clear h
  induction ds generalizing es with
  | nil =>
    cases es with
    | nil => rfl
    | cons e es => simp [lines] at hsplit
  | cons d ds ih =>
    cases es with
    | nil => simp [lines] at hsplit
    | cons e es =>
      obtain ⟨hd, hds⟩ := List.forall_mem_cons.mp hds
      obtain ⟨he, hes⟩ := List.forall_mem_cons.mp hes
      simp only [List.flatMap_cons, lines, List.map_cons, List.map_nil, List.cons_append,
        List.nil_append, List.cons.injEq] at hsplit
      obtain ⟨hheader, hsource, hcaret, hrest⟩ := hsplit
      rw [List.map_cons, List.map_cons, hd.shown_eq he hheader hsource hcaret, ih hds hes hrest]

end Diagnostic

section Text

variable {file text : String}

/-- A diagnostic is one of the spelling of a token, or it blames the token for its order. -/
theorem exists_blamed_of_mem {d : Diagnostic} (h : d ∈ (compile file text).diagnostics) :
    ∃ r ∈ (Lexer.start file text).readings,
      (d ∈ r.diagnostics ∨ ∃ f, d = r.token.blame f) ∧ d.place = r.token.place := by
  rcases mem_recognize_diagnostics h with ⟨r, hr, hd⟩ | ⟨t, ht, f, rfl⟩
  · exact ⟨r, hr, .inl hd, (place_of_mem_diagnostics hd).2⟩
  · obtain ⟨r, hr, rfl⟩ := List.mem_map.mp ht
    exact ⟨r, hr, .inr ⟨f, rfl⟩, rfl⟩

theorem exists_between_of_mem {d : Diagnostic} (h : d ∈ (compile file text).diagnostics) :
    ∃ before after, d.place = .between file before after := by
  obtain ⟨r, hr, -, hplace⟩ := exists_blamed_of_mem h
  obtain ⟨_, hstands⟩ := exists_standsAt_of_mem hr
  exact ⟨_, _, hplace.trans hstands.place⟩

theorem newline_not_mem_message_of_mem {d : Diagnostic}
    (h : d ∈ (compile file text).diagnostics) : '\n' ∉ d.message.toList := by
  rcases mem_recognize_diagnostics h with ⟨r, hr, hd⟩ | ⟨t, -, f, rfl⟩
  · obtain ⟨f, hf, rfl⟩ := List.mem_map.mp hd
    obtain ⟨xs, ys, hrs⟩ := List.append_of_mem hr
    rw [(stands_of_reads (reads_start file text) hrs).1.lexeme] at hf
    exact newline_not_mem_message hf
  · exact f.newline_not_mem_message

theorem printable_of_mem (hfile : '\n' ∉ file.toList) {d : Diagnostic}
    (h : d ∈ (compile file text).diagnostics) : d.Printable := by
  obtain ⟨before, after, hplace⟩ := exists_between_of_mem h
  refine ⟨?_, ?_, ?_⟩
  · have hmessage := newline_not_mem_message_of_mem h
    have hline := notMem_toDigits (c := '\n') (by decide) d.place.line
    have hcolumn := notMem_toDigits (c := '\n') (by decide) d.place.column
    have hname : '\n' ∉ d.place.file.toList := by rwa [hplace]
    simp [Diagnostic.header, Place.text, hmessage, hline, hcolumn, hname]
  · rw [hplace, Place.between, String.toList_ofList]
    exact newline_not_mem_lineAcross before after
  · simp [hplace, Place.between]

end Text

/-- The rendered diagnostics of a text split into three lines for each of them, in the order they were
recorded. The caret stands under the first character of the token that is blamed, and behind the whole
line exactly if that is the end of the text. Where two texts are rendered alike, as many diagnostics
were recorded, and they show the same. -/
theorem compile_render_readBack (file text : String) (hfile : '\n' ∉ file.toList) :
    let rs := (Lexer.start file text).readings
    let ds := (compile file text).diagnostics
    (Diagnostic.render ds).toList.splitOn '\n' = ds.flatMap (Diagnostic.block file) ++ [[]] ∧
    (∀ d ∈ ds, ∃ r ∈ rs, (d ∈ r.diagnostics ∨ ∃ f, d = r.token.blame f) ∧
      (r.token.kind ≠ .endOfFile → ∃ c, r.lexeme.slice.head? = some c ∧
        d.place.sourceLine.toList[d.place.column - 1]? = some c) ∧
      (d.place.column = d.place.sourceLine.toList.length + 1 ↔ r.token.kind = .endOfFile)) ∧
    ∀ file' text', '\n' ∉ file'.toList →
      Diagnostic.render ds = Diagnostic.render (compile file' text').diagnostics →
      ds.map Diagnostic.shown = (compile file' text').diagnostics.map Diagnostic.shown := by
  intro rs ds
  have hprintable : ∀ d ∈ ds, d.Printable := fun d => printable_of_mem hfile
  refine ⟨?_, fun d hd => ?_, fun file' text' hfile' =>
    Diagnostic.shown_of_render_eq hprintable fun e => printable_of_mem hfile'⟩
  · rw [Diagnostic.splitOn_render hprintable]
    congr 1
    refine List.flatMap_congr fun d hd => Diagnostic.lines_eq_block ?_
    obtain ⟨before, after, hplace⟩ := exists_between_of_mem hd
    rw [hplace]
    rfl
  · obtain ⟨r, hr, hblamed, hplace⟩ := exists_blamed_of_mem hd
    obtain ⟨_, hstands⟩ := exists_standsAt_of_mem hr
    rw [hplace]
    refine ⟨r, hr, hblamed, fun hkind => ?_, fun hcolumn => ?_,
      fun hkind => (hstands.last (r.isLast_iff.mpr hkind)).2⟩
    · obtain ⟨c, hc, -, hunder, -⟩ :=
        hstands.first (Bool.eq_false_iff.mpr fun hlast => hkind (r.isLast_iff.mp hlast))
      exact ⟨c, hc, hunder⟩
    · cases hlast : r.isLast with
      | true => exact r.isLast_iff.mp hlast
      | false =>
        obtain ⟨_, -, -, -, hwithin⟩ := hstands.first hlast
        omega

/-- An invalid word, a character that starts no token in front of a line break with its carriage
return, and the end of the text behind `fun`. -/
theorem compile_render_readBack_carriageReturn :
    '\n' ∉ "main.sls".toList ∧
      (Diagnostic.render (compile "main.sls" "é \x01\r\nfun").diagnostics).toList.splitOn '\n' =
        ["main.sls:1:1: error: invalid identifier name", "é \x01", "^",
          "main.sls:1:3: error: unexpected invalid token", "é \x01", "  ^",
          "main.sls:2:4: error: expected function name", "fun", "   ^", ""].map String.toList := by
  have hfile : '\n' ∉ "main.sls".toList := by decide +kernel
  refine ⟨hfile, (compile_render_readBack "main.sls" "é \x01\r\nfun" hfile).1.trans ?_⟩
  decide +kernel

end SlsLang
