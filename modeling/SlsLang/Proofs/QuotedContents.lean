import SlsLang.NextLexeme

namespace SlsLang

/-- Characters and escapes as they are spelled between quotes, and the value they stand for. -/
inductive Contents : List Char → List Char → Prop
  | nil : Contents [] []
  | plain {c : Char} {spelling value : List Char} (quote : c ≠ '"') (backslash : c ≠ '\\')
      (newline : c ≠ '\n') (rest : Contents spelling value) :
      Contents (c :: spelling) (c :: value)
  | escape {c : Char} {spelling value : List Char} (newline : c ≠ '\n')
      (rest : Contents spelling value) :
      Contents ('\\' :: c :: spelling) (unescape c ++ value)

/-- Nothing that is left of a text stands on the line it starts on. -/
def AtLineEnd (cs : List Char) : Prop := cs = [] ∨ cs.head? = some '\n'

theorem contents_newline {spelling value : List Char} (h : Contents spelling value) :
    '\n' ∉ spelling := by
  induction h with
  | nil => simp
  | plain _ _ hn _ ih => simp [Ne.symm hn, ih]
  | escape hn _ ih => simp [Ne.symm hn, ih]

/-- What is read of a string: its contents, and then the closing quote, the end of the line, or a
backslash with which the line ends. -/
inductive StringEnd (slice value : List Char) (q : Quoted) : List Char → Prop
  | closed {s v after : List Char} (contents : Contents s v)
      (read : q = ⟨slice.reverse ++ (s ++ ['"']), value.reverse ++ v, true⟩) :
      StringEnd slice value q (s ++ '"' :: after)
  | line {s v after : List Char} (contents : Contents s v) (lineEnd : AtLineEnd after)
      (read : q = ⟨slice.reverse ++ s, value.reverse ++ v, false⟩) :
      StringEnd slice value q (s ++ after)
  | backslash {s v after : List Char} (contents : Contents s v) (lineEnd : AtLineEnd after)
      (read : q = ⟨slice.reverse ++ (s ++ ['\\']), value.reverse ++ (v ++ ['\\']), false⟩) :
      StringEnd slice value q (s ++ '\\' :: after)

theorem stringEnd_plain {c : Char} {slice value cs : List Char} {q : Quoted} (hq : c ≠ '"')
    (hb : c ≠ '\\') (hn : c ≠ '\n') (h : StringEnd (c :: slice) (c :: value) q cs) :
    StringEnd slice value q (c :: cs) := by
  cases h with
  | closed hc hr => exact .closed (s := c :: _) (.plain hq hb hn hc) (by simp [hr])
  | line hc hl hr => exact .line (s := c :: _) (.plain hq hb hn hc) hl (by simp [hr])
  | backslash hc hl hr => exact .backslash (s := c :: _) (.plain hq hb hn hc) hl (by simp [hr])

theorem stringEnd_escape {c : Char} {slice value cs : List Char} {q : Quoted} (hn : c ≠ '\n')
    (h : StringEnd (c :: '\\' :: slice) ((unescape c).reverse ++ value) q cs) :
    StringEnd slice value q ('\\' :: c :: cs) := by
  cases h with
  | closed hc hr => exact .closed (s := '\\' :: c :: _) (.escape hn hc) (by simp [hr])
  | line hc hl hr => exact .line (s := '\\' :: c :: _) (.escape hn hc) hl (by simp [hr])
  | backslash hc hl hr => exact .backslash (s := '\\' :: c :: _) (.escape hn hc) hl (by simp [hr])

theorem stringContents_stringEnd (slice value cs : List Char) :
    StringEnd slice value (stringContents slice value cs) cs := by
  fun_induction stringContents slice value cs with
  | case1 slice value => exact .line (s := []) .nil (.inl rfl) (by simp)
  | case2 slice value r => exact .closed (s := []) .nil (by simp)
  | case3 slice value r => exact .line (s := []) .nil (.inr rfl) (by simp)
  | case4 slice value => exact .backslash (s := []) .nil (.inl rfl) (by simp)
  | case5 slice value r => exact .backslash (s := []) .nil (.inr rfl) (by simp)
  | case6 slice value c r hn ih => exact stringEnd_escape (by simpa using hn) ih
  | case7 slice value c r hq hn hb hbn he ih =>
    refine stringEnd_plain (by simpa using hq) ?_ (by simpa using hn) ih
    rintro rfl
    cases r with
    | nil => exact hb rfl rfl
    | cons d s => exact he d s rfl rfl

/-- Contents are read back whatever follows their closing quote. -/
theorem stringContents_of_contents {s v : List Char} (h : Contents s v)
    (slice value after : List Char) :
    stringContents slice value (s ++ '"' :: after) =
      ⟨slice.reverse ++ (s ++ ['"']), value.reverse ++ v, true⟩ := by
  induction h generalizing slice value with
  | nil => simp [stringContents]
  | @plain c s v hq hb hn _ ih =>
    have hstep : stringContents slice value (c :: s ++ '"' :: after) =
        stringContents (c :: slice) (c :: value) (s ++ '"' :: after) := by
      rw [List.cons_append, stringContents] <;> simp [hq, hb, hn]
    rw [hstep, ih]
    simp
  | @escape c s v hn _ ih =>
    have hstep : stringContents slice value ('\\' :: c :: s ++ '"' :: after) =
        stringContents (c :: '\\' :: slice) ((unescape c).reverse ++ value) (s ++ '"' :: after) := by
      rw [List.cons_append, List.cons_append, stringContents]
      simpa using hn
    rw [hstep, ih]
    simp

end SlsLang
