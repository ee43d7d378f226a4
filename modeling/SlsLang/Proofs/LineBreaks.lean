import SlsLang.Compilation
import SlsLang.Proofs.LineLocality
import SlsLang.Proofs.Lookahead

namespace SlsLang

open Lexeme

/-- The characters with a carriage return before every newline. -/
def addReturns (cs : List Char) : List Char :=
  cs.flatMap fun c => if c = '\n' then ['\r', '\n'] else [c]

def withReturns (text : String) : String := String.ofList (addReturns text.toList)

/-- Only a comment is read as it is spelled over more than one line. -/
def Token.withReturns (t : Token) : Token :=
  if t.isComment then { t with text := SlsLang.withReturns t.text } else t

section Returns

variable {before after cs : List Char}

theorem addReturns_append (xs ys : List Char) :
    addReturns (xs ++ ys) = addReturns xs ++ addReturns ys :=
  List.flatMap_append

theorem addReturns_cons_of_ne {c : Char} (h : c ≠ '\n') (cs : List Char) :
    addReturns (c :: cs) = c :: addReturns cs := by
  rw [addReturns, List.flatMap_cons, if_neg h, List.singleton_append, addReturns]

theorem addReturns_cons_newline (cs : List Char) :
    addReturns ('\n' :: cs) = '\r' :: '\n' :: addReturns cs := rfl

theorem addReturns_of_notMem (h : '\n' ∉ cs) : addReturns cs = cs := by
  induction cs with
  | nil => rfl
  | cons c cs ih =>
    rw [List.mem_cons, not_or] at h
    rw [addReturns_cons_of_ne (Ne.symm h.1), ih h.2]

theorem count_addReturns (cs : List Char) : (addReturns cs).count '\n' = cs.count '\n' := by
  induction cs with
  | nil => rfl
  | cons c cs ih =>
    by_cases hc : c = '\n'
    · subst hc
      rw [addReturns_cons_newline, List.count_cons_of_ne (by decide), List.count_cons_self,
        List.count_cons_self, ih]
    · rw [addReturns_cons_of_ne hc, List.count_cons_of_ne hc, List.count_cons_of_ne hc, ih]

theorem newline_mem_addReturns (cs : List Char) : '\n' ∈ addReturns cs ↔ '\n' ∈ cs := by
  rw [← List.count_pos_iff, count_addReturns, List.count_pos_iff]

theorem start_addReturns (h : ∀ c ∈ cs.head?, isWhitespace c = false) :
    ∀ c ∈ (addReturns cs).head?, isWhitespace c = false := by
  cases cs with
  | nil => exact h
  | cons c cs =>
    have hc : c ≠ '\n' := by
      rintro rfl
      exact absurd (h '\n' rfl) (by decide)
    rw [addReturns_cons_of_ne hc]
    exact h

theorem whitespace_addReturns (h : ∀ c ∈ cs, isWhitespace c = true) :
    ∀ c ∈ addReturns cs, isWhitespace c = true := by
  intro d hd
  obtain ⟨c, hc, hcd⟩ := List.mem_flatMap.mp hd
  split at hcd
  · rcases List.mem_pair.mp hcd with rfl | rfl <;> rfl
  · obtain rfl : d = c := List.mem_singleton.mp hcd
    exact h d hc

/-- A newline and the return before it stop a lexeme alike. -/
theorem stopsAlike_addReturns (cs : List Char) : StopsAlike cs (addReturns cs) := by
  cases cs with
  | nil => exact .inl rfl
  | cons c cs =>
    by_cases hc : c = '\n'
    · subst hc
      exact .inr ⟨'\r', rfl, by decide⟩
    · exact .inl (by rw [addReturns_cons_of_ne hc, List.head?_cons, List.head?_cons])

theorem lastLine_addReturns (cs : List Char) : lastLine (addReturns cs) = lastLine cs := by
  induction cs using List.reverseRecOn with
  | nil => rfl
  | append_singleton cs c ih =>
    rw [addReturns_append]
    by_cases hc : c = '\n'
    · subst hc
      have hbreak : addReturns cs ++ addReturns ['\n'] = (addReturns cs ++ ['\r']) ++ ['\n'] := by
        simp [addReturns]
      rw [hbreak, lastLine_concat_newline, lastLine_concat_newline]
    · have hself : addReturns [c] = [c] := addReturns_cons_of_ne hc []
      rw [hself, lastLine_concat _ hc, ih, lastLine_concat _ hc]

theorem takeWhile_addReturns (cs : List Char) : (addReturns cs).takeWhile (· != '\n') =
    cs.takeWhile (· != '\n') ++ if '\n' ∈ cs then ['\r'] else [] := by
  induction cs with
  | nil => rfl
  | cons c cs ih =>
    by_cases hc : c = '\n'
    · subst hc
      simp [addReturns]
    · rw [addReturns_cons_of_ne hc, List.takeWhile_cons_of_pos (by simpa using hc), ih,
        List.takeWhile_cons_of_pos (by simpa using hc)]
      simp [Ne.symm hc]

/-- The returns before the newlines belong to the line breaks. -/
theorem lineAcross_addReturns (h : '\r' ∉ before ++ after) :
    lineAcross (addReturns before) (addReturns after) = lineAcross before after := by
  have hline : '\r' ∉ lastLine before ++ after.takeWhile (· != '\n') := by
    rw [List.mem_append, not_or] at h ⊢
    exact ⟨fun hr => h.1 ((lastLine_suffix before).subset hr),
      fun hr => h.2 ((List.takeWhile_sublist _).subset hr)⟩
  have hlast : (lastLine before ++ after.takeWhile (· != '\n')).getLast? ≠ some '\r' := fun hr =>
    hline (List.mem_of_getLast? hr)
  simp only [lineAcross, lastLine_addReturns, takeWhile_addReturns, newline_mem_addReturns]
  split
  · rw [← List.append_assoc, dropReturn, if_pos (by simp), List.dropLast_concat, dropReturn,
      if_neg hlast]
  · rw [List.append_nil]

theorem Place.between_addReturns (file : String) (h : '\r' ∉ before ++ after) :
    Place.between file (addReturns before) (addReturns after) = .between file before after := by
  rw [between, count_addReturns, lastLine_addReturns, lineAcross_addReturns h, between]

/-- No return comes between a star and a slash. -/
theorem hasClose_of_addReturns (h : HasClose (addReturns cs)) : HasClose cs := by
  induction cs with
  | nil => exact h
  | cons c cs ih =>
    rw [hasClose_cons]
    by_cases hc : c = '\n'
    · subst hc
      rw [addReturns_cons_newline, hasClose_cons, hasClose_cons] at h
      have hclose : HasClose (addReturns cs) := by simpa using h
      exact .inr (ih hclose)
    · rw [addReturns_cons_of_ne hc, hasClose_cons] at h
      refine h.imp ?_ ih
      rintro ⟨s, hstar, hslash⟩
      cases cs with
      | nil => cases hslash
      | cons d cs =>
        by_cases hd : d = '\n'
        · subst hd
          cases hslash
        · rw [addReturns_cons_of_ne hd, List.cons.injEq] at hslash
          exact ⟨cs, hstar, by rw [hslash.1]⟩

end Returns

/-- Only a comment goes over the end of its line. -/
theorem Reading.Stands.newline_notMem {file : String} {before after : List Char} {r : Reading}
    (h : r.Stands file before after) (hk : r.lexeme.kind ≠ .comment) : '\n' ∉ r.lexeme.slice := by
  have hsingle : ∀ {p : Char → Bool}, r.lexeme.IsSingle p → '\n' ∉ r.lexeme.slice := by
    intro p hp
    obtain ⟨c, -, hc⟩ := hp.one
    have hwhite : isWhitespace c = false := h.start c (by simp [hc])
    rw [hc, List.mem_singleton]
    rintro rfl
    simp [isWhitespace, whitespaceChars] at hwhite
  have hrun : ∀ {p : Char → Bool}, p '\n' = false → (∀ c ∈ r.lexeme.slice, p c = true) →
      '\n' ∉ r.lexeme.slice := by
    intro p hp hall hn
    have hnewline := hall _ hn
    simp [hp] at hnewline
  have hpromise := h.promise
  unfold Promise at hpromise
  cases hc : r.lexeme.kind <;> rw [hc] at hpromise
  case comment => exact absurd hc hk
  case operator | punctuation | invalid => exact hsingle hpromise
  case keyword | identifier => exact hrun (by decide) hpromise.1.chars
  case double | float | int32 | int64 => exact hrun (by decide) hpromise.chars
  case string | character => exact hpromise.2
  case endOfFile => simp [hpromise.1]
  case boolean => exact hpromise.elim

/-- How a lexeme in front of `after` is read once returns are added to the text. Behind its own
slice it may take up the return of the break that ends its line. -/
structure Lexeme.Returned (l : Lexeme) (after : List Char) (l' : Lexeme) (after' : List Char) :
    Prop where
  read : nextLexeme (l'.slice ++ after') = l'
  kind : l'.kind = l.kind
  faults : l'.faults = l.faults
  text : l'.text = if l.kind = .comment then withReturns l.text else l.text
  slice : ∃ returns, (∀ c ∈ returns, isWhitespace c = true) ∧
    l'.slice = addReturns l.slice ++ returns ∧ addReturns after = returns ++ after'

theorem withReturns_of_notMem {text : String} (h : '\n' ∉ text.toList) :
    withReturns text = text := by
  rw [withReturns, addReturns_of_notMem h, String.ofList_toList]

theorem Lexeme.IsLineComment.newline_notMem_text {l : Lexeme} {after : List Char}
    (h : l.IsLineComment after) : '\n' ∉ l.text.toList := by
  obtain ⟨n, hn⟩ := h.returns
  exact fun hm => h.newline (hn ▸ List.mem_append_left _ hm)

theorem dropTrailingReturns_concat (cs : List Char) :
    dropTrailingReturns (cs ++ ['\r']) = dropTrailingReturns cs := by
  rw [dropTrailingReturns_eq, List.rdropWhile_concat_pos _ _ _ rfl, dropTrailingReturns_eq]

/-- A line comment takes up the return of its line break, and its text is without it. -/
theorem Lexeme.IsLineComment.exists_returned {l : Lexeme} {after : List Char}
    (h : l.IsLineComment after) (hread : l = nextLexeme (l.slice ++ after)) :
    ∃ l' after', l.Returned after l' after' := by
  obtain ⟨body, hbody⟩ := h.opening
  have hn : '\n' ∉ body := fun hm => h.newline (hbody ▸ List.mem_append_right _ hm)
  have hslice : addReturns l.slice = l.slice := addReturns_of_notMem h.newline
  have htext : withReturns l.text = l.text := withReturns_of_notMem h.newline_notMem_text
  have hl := nextLexeme_lineComment hn h.lineEnd
  have hspelled : '/' :: '/' :: body = l.slice := hbody
  rw [hspelled, ← hread] at hl
  have hk : l.kind = .comment := by rw [hl]
  rcases h.lineEnd with rfl | hbreak
  · refine ⟨l, [], hread.symm, rfl, rfl, by rw [htext, ite_self], [], by simp, ?_, rfl⟩
    rw [hslice, List.append_nil]
  · obtain ⟨b, rfl⟩ := List.head?_eq_some_iff.mp hbreak
    let l' : Lexeme := ⟨.comment, l.slice ++ ['\r'], l.text, []⟩
    have hn' : '\n' ∉ body ++ ['\r'] := by simp [hn]
    have hspelled' : '/' :: '/' :: (body ++ ['\r']) = l'.slice := by
      rw [← List.cons_append, ← List.cons_append, hspelled]
    have hl' : nextLexeme (l'.slice ++ '\n' :: addReturns b) = l' := by
      have hread' := nextLexeme_lineComment hn' (.inr rfl : AtLineEnd ('\n' :: addReturns b))
      have hsame : String.ofList (dropTrailingReturns l.slice) = l.text := by rw [hl]
      rwa [hspelled', dropTrailingReturns_concat, hsame] at hread'
    have hreturn : ∀ c ∈ ['\r'], isWhitespace c = true := List.forall_mem_singleton.mpr rfl
    refine ⟨l', '\n' :: addReturns b, hl', hk.symm, h.faultless.symm, ?_, ['\r'], hreturn, ?_, rfl⟩
    · rw [htext, ite_self]
    · rw [hslice]

theorem addReturns_comment (body : List Char) :
    addReturns ('/' :: '*' :: body) = '/' :: '*' :: addReturns body := by
  rw [addReturns_cons_of_ne (by decide), addReturns_cons_of_ne (by decide)]

/-- A block comment without a close is read to the end of the text. -/
theorem nextLexeme_openComment {body : List Char} (h : ¬ HasClose body) :
    nextLexeme ('/' :: '*' :: body) = ⟨.comment, '/' :: '*' :: body,
      String.ofList ('/' :: '*' :: body), [.unterminatedComment]⟩ := by
  have hnone : throughClose? ['*', '/'] body = none := by
    cases hclose : throughClose? ['*', '/'] body with
    | none => rfl
    | some slice =>
      obtain ⟨inner, after, rfl, -, -⟩ := throughClose?_some hclose
      exact absurd ⟨inner, after, by simp⟩ h
  rw [nextLexeme, blockComment, hnone]
  rfl

/-- A block comment takes up the returns within it. -/
theorem Lexeme.IsBlockComment.exists_returned {l : Lexeme} {after : List Char}
    (h : l.IsBlockComment after) (hk : l.kind = .comment) :
    ∃ l' after', l.Returned after l' after' := by
  let l' : Lexeme := ⟨.comment, addReturns l.slice, String.ofList (addReturns l.slice), l.faults⟩
  have hslice : l'.slice = addReturns l.slice ++ [] := (List.append_nil _).symm
  have htext : l.text = String.ofList l.slice →
      l'.text = if l.kind = .comment then withReturns l.text else l.text := by
    intro ht
    rw [if_pos hk, withReturns, ht, String.toList_ofList]
  suffices hread : nextLexeme (l'.slice ++ addReturns after) = l' ∧
      l.text = String.ofList l.slice from
    ⟨l', addReturns after, hread.1, hk.symm, rfl, htext hread.2, [], by simp, hslice, rfl⟩
  cases h with
  | @closed body _ slice first text faultless =>
    have hstar : addReturns (body ++ ['*']) = addReturns body ++ ['*'] := addReturns_append _ _
    have hfirst : ¬ HasClose (addReturns body ++ ['*']) := fun hc =>
      first (hasClose_of_addReturns (hstar ▸ hc))
    have hbody : addReturns l.slice = '/' :: '*' :: (addReturns body ++ ['*', '/']) := by
      rw [slice, addReturns_comment, addReturns_append]
      rfl
    have hread := nextLexeme_blockComment hfirst (addReturns after)
    rw [← hbody, Lexeme.verbatim, ← faultless] at hread
    exact ⟨hread, text⟩
  | @unclosed body slice first text fault =>
    have hopen : ¬ HasClose (addReturns body) := fun hc => first (hasClose_of_addReturns hc)
    have hread := nextLexeme_openComment hopen
    rw [← addReturns_comment, ← slice, ← fault] at hread
    have hend : addReturns l.slice ++ addReturns [] = addReturns l.slice := List.append_nil _
    exact ⟨(congrArg nextLexeme hend).trans hread, text⟩

namespace Reading

variable {file : String} {before after : List Char} {r : Reading}

/-- Every lexeme is read again once returns are added. Only an open quote would take the return of
the break that ends its line for a character. -/
theorem Stands.exists_returned (h : r.Stands file before after)
    (hclosed : ∀ f ∈ r.lexeme.faults, f.leavesQuoteOpen = false) :
    ∃ l' after', r.lexeme.Returned after l' after' := by
  by_cases hk : r.lexeme.kind = .comment
  · have hpromise := h.promise
    rw [Promise, hk] at hpromise
    rcases hpromise with hline | hblock
    · exact hline.exists_returned h.lexeme
    · exact hblock.exists_returned hk
  · have hslice : addReturns r.lexeme.slice = r.lexeme.slice :=
      addReturns_of_notMem (h.newline_notMem hk)
    refine ⟨r.lexeme, addReturns after, ?_, rfl, rfl, (if_neg hk).symm, [], by simp, ?_, rfl⟩
    · cases hl : r.isLast with
      | true =>
        obtain ⟨-, rfl⟩ := h.nil_of_isLast hl
        exact h.lexeme.symm
      | false =>
        have hbreak : (nextLexeme (r.lexeme.slice ++ after)).BreaksOffAlike after
            (addReturns after) := by
          rw [← h.lexeme]
          intro f hf hopen
          simp [hclosed f hf] at hopen
        have hread := nextLexeme_stopsAlike (stopsAlike_addReturns after) (h.slice_ne_nil hl)
          (congrArg Lexeme.slice h.lexeme.symm) (h.lexeme ▸ hk) hbreak
        exact hread.trans h.lexeme.symm
    · rw [hslice, List.append_nil]

/-- A reading stands where it stood, with the returns added that it takes up. -/
theorem Stands.returned (h : r.Stands file before after)
    (hreturn : '\r' ∉ before ++ (r.chars ++ after)) {l' : Lexeme} {after' : List Char}
    (hl' : r.lexeme.Returned after l' after') :
    (⟨addReturns r.gap, l', r.place⟩ : Reading).Stands file (addReturns before) after' := by
  obtain ⟨returns, -, hslice, hafter⟩ := hl'.slice
  have htext : l'.slice ++ after' = addReturns (r.lexeme.slice ++ after) := by
    rw [addReturns_append, hslice, hafter, List.append_assoc]
  have hplace : r.place =
      .between file (addReturns before ++ addReturns r.gap) (l'.slice ++ after') := by
    have hnone : '\r' ∉ before ++ r.gap ++ (r.lexeme.slice ++ after) := by
      simpa [chars] using hreturn
    rw [htext, ← addReturns_append, Place.between_addReturns file hnone, h.place]
  have hstart : ∀ c ∈ (l'.slice ++ after').head?, isWhitespace c = false := by
    rw [htext]
    exact start_addReturns h.start
  rw [hplace]
  exact .of_nextLexeme (whitespace_addReturns h.gap) hstart hl'.read

/-- The token keeps its place, and its text gains the returns within a comment. -/
theorem token_returned {l' : Lexeme} {after' : List Char}
    (hl' : r.lexeme.Returned after l' after') :
    (⟨addReturns r.gap, l', r.place⟩ : Reading).token = r.token.withReturns := by
  simp only [token, hl'.kind, hl'.text, Token.withReturns, Token.isComment, beq_iff_eq]
  split <;> rfl

theorem diagnostics_returned {l' : Lexeme} {after' : List Char}
    (hl' : r.lexeme.Returned after l' after') :
    (⟨addReturns r.gap, l', r.place⟩ : Reading).diagnostics = r.diagnostics := by
  simp only [diagnostics, hl'.faults]

end Reading

namespace Reads

variable {file : String} {before cs : List Char} {rs : List Reading}

/-- Whitespace at the head of what is left may as well have been read before. -/
theorem exists_behind {gap : List Char} (h : Reads file before (gap ++ cs) rs)
    (hw : ∀ c ∈ gap, isWhitespace c = true) :
    ∃ rs', rs = readingsBehind gap rs' ∧ Reads file (before ++ gap) cs rs' := by
  have hreads := reads_readings file (before ++ gap) cs
  have hbehind := readings_of_reads (hreads.behind hw)
  exact ⟨_, (readings_of_reads h).symm.trans hbehind, hreads⟩

/-- With returns added a text is read as it was. -/
theorem returned (h : Reads file before cs rs) (hreturn : '\r' ∉ before ++ cs)
    (hclosed : ∀ r ∈ rs, ∀ f ∈ r.lexeme.faults, f.leavesQuoteOpen = false) :
    ∃ rs', Reads file (addReturns before) (addReturns cs) rs' ∧
      rs'.map Reading.token = (rs.map Reading.token).map Token.withReturns ∧
      rs'.map Reading.diagnostics = rs.map Reading.diagnostics := by
  -- A line comment takes up the return that its line break gains. The next reading starts behind
  -- it, so what the induction reads is read again without that return in front.
  induction h with
  | @last before r hr hl =>
    obtain ⟨l', after', hl'⟩ := hr.exists_returned (List.forall_mem_singleton.mp hclosed)
    obtain ⟨returns, -, hslice, hafter⟩ := hl'.slice
    obtain ⟨rfl, rfl⟩ := List.append_eq_nil_iff.mp hafter.symm
    have hstands := hr.returned (by simpa using hreturn) hl'
    have hchars : addReturns r.chars = (⟨addReturns r.gap, l', r.place⟩ : Reading).chars := by
      rw [Reading.chars, addReturns_append, Reading.chars, hslice, List.append_nil]
    have hlast : (⟨addReturns r.gap, l', r.place⟩ : Reading).isLast = true := by
      rw [Reading.isLast_iff] at hl ⊢
      exact hl'.kind.trans hl
    rw [hchars]
    exact ⟨_, .last hstands hlast, congrArg (fun t => [t]) (Reading.token_returned hl'),
      congrArg (fun ds => [ds]) (Reading.diagnostics_returned hl')⟩
  | @step before after r rs hr hl hrest ih =>
    obtain ⟨hfirst, hothers⟩ := List.forall_mem_cons.mp hclosed
    obtain ⟨l', after', hl'⟩ := hr.exists_returned hfirst
    obtain ⟨returns, hwhite, hslice, hafter⟩ := hl'.slice
    have hstands := hr.returned hreturn hl'
    rw [← List.append_assoc] at hreturn
    obtain ⟨rs', hreads, htokens, hdiagnostics⟩ := ih hreturn hothers
    rw [hafter] at hreads
    obtain ⟨rs', rfl, hrest'⟩ := hreads.exists_behind hwhite
    let r' : Reading := ⟨addReturns r.gap, l', r.place⟩
    have hchars : r'.chars = addReturns r.chars ++ returns := by
      rw [Reading.chars, hslice, Reading.chars, addReturns_append, List.append_assoc]
    have hmore : r'.isLast = false := by
      rw [Bool.eq_false_iff, Ne, Reading.isLast_iff] at hl ⊢
      exact fun hk => hl (hl'.kind.symm.trans hk)
    have hbefore : addReturns (before ++ r.chars) ++ returns = addReturns before ++ r'.chars := by
      rw [hchars, addReturns_append, List.append_assoc]
    have htext : addReturns (r.chars ++ after) = r'.chars ++ after' := by
      rw [hchars, addReturns_append, hafter, List.append_assoc]
    rw [hbefore] at hrest'
    rw [htext]
    refine ⟨r' :: rs', .step hstands hmore hrest', ?_, ?_⟩
    · rw [map_token_readingsBehind] at htokens
      rw [List.map_cons, List.map_cons, List.map_cons, htokens, Reading.token_returned hl']
    · rw [map_diagnostics_readingsBehind] at hdiagnostics
      rw [List.map_cons, List.map_cons, hdiagnostics, Reading.diagnostics_returned hl']

end Reads

theorem sourceChars_withReturns (text : String) :
    sourceChars (withReturns text) = addReturns (sourceChars text) := by
  rcases toList_eq_sourceChars text with ⟨hmark, htext⟩ | htext
  · have hmark' : (withReturns text).toList.head? ≠ some '\ufeff' := by
      rw [withReturns, String.toList_ofList]
      exact (stopsAlike_addReturns text.toList).head_ne (by decide) hmark
    rw [sourceChars, if_neg hmark', withReturns, String.toList_ofList, htext]
  · have htext' : (withReturns text).toList = '\ufeff' :: addReturns (sourceChars text) := by
      rw [withReturns, String.toList_ofList, htext, addReturns_cons_of_ne (by decide)]
    rw [sourceChars, htext']
    rfl

theorem Token.isComment_withReturns (t : Token) : t.withReturns.isComment = t.isComment := by
  rw [Token.withReturns]
  split <;> rfl

theorem Awaiting.respond_withReturns (a : Awaiting) (t : Token) :
    a.respond t.withReturns = a.respond t := by
  cases hc : t.isComment with
  | true => rw [a.respond_comment hc, a.respond_comment (t.isComment_withReturns.trans hc)]
  | false => rw [Token.withReturns, if_neg (by simp [hc])]

theorem Awaiting.responses_withReturns (a : Awaiting) (ts : List Token) :
    a.responses (ts.map Token.withReturns) = a.responses ts := by
  induction ts generalizing a with
  | nil => rfl
  | cons t ts ih => rw [List.map_cons, responses_cons, responses_cons, a.respond_withReturns, ih]

/-- What the texts of comments hold does not change what is recognized. -/
theorem recognize_withReturns {rs rs' : List Reading}
    (htokens : rs'.map Reading.token = (rs.map Reading.token).map Token.withReturns)
    (hdiagnostics : rs'.map Reading.diagnostics = rs.map Reading.diagnostics) :
    recognize rs' = recognize rs := by
  have hblame : ∀ (rs : List Reading) (answers : List Response),
      rs.zipWith (fun reading response => reading.diagnostics ++ response.faults) answers =
        (rs.map Reading.diagnostics).zipWith (fun faults response => faults ++ response.faults)
          answers := by
    intro rs answers
    rw [List.zipWith_map_left]
  rw [recognize, htokens, Awaiting.responses_withReturns, hblame, hdiagnostics, ← hblame, recognize]

/-- Line endings do not matter: with a return before every newline a text is compiled to the same
tree, symbols and diagnostics, and only comments over several lines are told apart. An open quote
would take the return into its constant. -/
theorem compile_withReturns (file : String) {text : String} (hreturn : '\r' ∉ text.toList)
    (hclosed : ∀ d ∈ spellingFaults file text, d.fault ≠ .lexical .unterminatedString ∧
      d.fault ≠ .lexical .unterminatedCharacter ∧ d.fault ≠ .lexical .endOfLineInCharacter) :
    compile file (withReturns text) = compile file text ∧
    spellingFaults file (withReturns text) = spellingFaults file text ∧
    tokenize file (withReturns text) = (tokenize file text).map Token.withReturns := by
  have hnone : '\r' ∉ [] ++ sourceChars text := by
    rcases toList_eq_sourceChars text with ⟨-, htext⟩ | htext
    · rwa [htext] at hreturn
    · exact fun hr => hreturn (htext ▸ List.mem_cons_of_mem _ hr)
  have hfaults : ∀ r ∈ (Lexer.start file text).readings, ∀ f ∈ r.lexeme.faults,
      f.leavesQuoteOpen = false := by
    intro r hr f hf
    have hd := hclosed ⟨.lexical f, r.place⟩
      (List.mem_flatMap.mpr ⟨r, hr, List.mem_map_of_mem hf⟩)
    cases f <;> simp_all [LexicalFault.leavesQuoteOpen]
  obtain ⟨rs, hreads, htokens, hdiagnostics⟩ := (reads_start file text).returned hnone hfaults
  have hreadings : (Lexer.start file (withReturns text)).readings = rs := by
    rw [Lexer.start_eq_between, sourceChars_withReturns]
    exact readings_of_reads hreads
  refine ⟨?_, ?_, ?_⟩
  · rw [compile, compileInto, hreadings, recognize_withReturns htokens hdiagnostics]
    rfl
  · rw [spellingFaults, spellingFaults, hreadings, List.flatMap_def, List.flatMap_def,
      hdiagnostics]
  · rw [tokenize, hreadings, htokens, tokenize]

/-- A line comment, a block comment over two lines, and a fault that is no open quote. -/
theorem compile_withReturns_comments :
    let text := "// one\nfun f() \x7b\n  x = 1'\n  /* two\n  */;\n\x7d"
    '\r' ∉ text.toList ∧
    (∀ d ∈ spellingFaults "main.sls" text, d.fault ≠ .lexical .unterminatedString ∧
      d.fault ≠ .lexical .unterminatedCharacter ∧ d.fault ≠ .lexical .endOfLineInCharacter) ∧
    compile "main.sls" (withReturns text) = compile "main.sls" text ∧
    spellingFaults "main.sls" (withReturns text) = spellingFaults "main.sls" text ∧
    tokenize "main.sls" (withReturns text) = (tokenize "main.sls" text).map Token.withReturns := by
  intro text
  have hreturn : '\r' ∉ text.toList := by decide +kernel
  have hclosed : ∀ d ∈ spellingFaults "main.sls" text, d.fault ≠ .lexical .unterminatedString ∧
      d.fault ≠ .lexical .unterminatedCharacter ∧ d.fault ≠ .lexical .endOfLineInCharacter := by
    decide +kernel
  exact ⟨hreturn, hclosed, compile_withReturns "main.sls" hreturn hclosed⟩

end SlsLang
