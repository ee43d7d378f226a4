import Mathlib.Data.List.Nodup
import Mathlib.Data.List.SplitBy
import SlsLang.GrammarTable
import SlsLang.Proofs.Lists
import SlsLang.Proofs.WrittenJson

namespace SlsLang

section References

/-- An angle bracket stands at the start of a text or right behind a blank. -/
def OpensReference (cs : List Char) : Prop :=
  ∃ before after, cs = before ++ '<' :: after ∧ ∀ c ∈ before.getLast?, isBlank c = true

theorem mem_terms_iff {cs term : List Char} :
    term ∈ terms cs ∧ term.head? = some '<' ↔
      term ∈ cs.splitBy (fun a b => isBlank a == isBlank b) ∧ term.head? = some '<' := by
  refine and_congr_left fun hhead => ?_
  have hplain : (!isBlank '<') = true := by decide
  rw [terms, List.mem_filter, hhead, Option.any_some, hplain, and_iff_left rfl]

theorem opensReference_of_mem {cs term : List Char}
    (h : term ∈ cs.splitBy fun a b => isBlank a == isBlank b) (hhead : term.head? = some '<') :
    OpensReference cs := by
  obtain ⟨before, after, hsplit⟩ := List.append_of_mem h
  obtain ⟨rest, rfl⟩ := List.head?_eq_some_iff.mp hhead
  have hflat := List.flatten_splitBy (fun a b => isBlank a == isBlank b) cs
  have hchain := List.isChain_getLast_head_splitBy (fun a b => isBlank a == isBlank b) cs
  rw [hsplit] at hflat hchain
  refine ⟨before.flatten, rest ++ after.flatten, by simp [← hflat], fun c hc => ?_⟩
  -- The group in front of the term ends with a blank, or the two would be one group.
  rcases List.eq_nil_or_concat' before with rfl | ⟨groups, group, rfl⟩
  · simp at hc
  · obtain ⟨hgroup, _, hbreak⟩ := (List.isChain_append.mp hchain).2.2 group (by simp) _
      (by simp : ('<' :: rest) ∈ (('<' :: rest) :: after).head?)
    have hlast : c = group.getLast hgroup := by
      rw [List.flatten_append, List.flatten_singleton,
        List.getLast?_append_of_ne_nil _ hgroup, List.getLast?_eq_getLast_of_ne_nil hgroup] at hc
      exact (Option.some.inj hc).symm
    have hplain : isBlank '<' = false := by decide
    rw [List.head_cons, ← hlast, hplain] at hbreak
    simpa using hbreak

theorem exists_mem_of_cons (rest : List Char) :
    ∃ term ∈ ('<' :: rest).splitBy fun a b => isBlank a == isBlank b, term.head? = some '<' := by
  have hne : ('<' :: rest).splitBy (fun a b => isBlank a == isBlank b) ≠ [] :=
    List.splitBy_ne_nil.mpr (List.cons_ne_nil _ _)
  refine ⟨_, List.head_mem hne, ?_⟩
  rw [List.head?_eq_some_head (List.ne_nil_of_mem_splitBy (List.head_mem hne)),
    List.head_head_splitBy _ (List.cons_ne_nil _ _), List.head_cons]

theorem exists_mem_of_opensReference {cs : List Char} (h : OpensReference cs) :
    ∃ term ∈ cs.splitBy fun a b => isBlank a == isBlank b, term.head? = some '<' := by
  obtain ⟨before, after, rfl, hblank⟩ := h
  obtain ⟨term, hterm, hhead⟩ := exists_mem_of_cons after
  refine ⟨term, ?_, hhead⟩
  rcases List.eq_nil_or_concat' before with rfl | ⟨init, c, rfl⟩
  · exact hterm
  · have hc : isBlank c = true := hblank c (by simp)
    have hplain : isBlank '<' = false := by decide
    rw [List.splitBy_append_cons _ (by simp [hc, hplain])]
    exact List.mem_append_right _ hterm

theorem references_iff (alternative : String) :
    references alternative = true ↔ OpensReference alternative.toList := by
  have hterms : references alternative = true ↔
      ∃ term, term ∈ terms alternative.toList ∧ term.head? = some '<' := by
    simp [references]
  rw [hterms]
  simp only [mem_terms_iff]
  exact ⟨fun ⟨_, hterm, hhead⟩ => opensReference_of_mem hterm hhead, exists_mem_of_opensReference⟩

end References

/-- A value that stands for an alternative, and its text. -/
inductive IsAlternative : JsonValue → String → Prop
  | string (text : String) : IsAlternative (.string text) text
  | type {entries : List (String × JsonValue)} {text : String}
    (isType : ("$type", .string text) ∈ entries) : IsAlternative (.object entries) text

/-- A value that stands for a rule, and its alternatives. Where there is a choice, the type does not
count. -/
inductive IsRule : JsonValue → List String → Prop
  | string (text : String) : IsRule (.string text) [text]
  | choice {entries : List (String × JsonValue)} {values : List JsonValue} {texts : List String}
    (isChoice : ("$or", .array values) ∈ entries) (each : List.Forall₂ IsAlternative values texts) :
    IsRule (.object entries) texts
  | type {entries : List (String × JsonValue)} {text : String}
    (noChoice : ∀ entry ∈ entries, entry.1 ≠ "$or") (isType : ("$type", .string text) ∈ entries) :
    IsRule (.object entries) [text]

section Rules

variable {entries : List (String × JsonValue)} {key : String} {value : JsonValue}

theorem lookup_eq_some_iff (h : KeysIncrease entries) :
    entries.lookup key = some value ↔ (key, value) ∈ entries := by
  induction entries with
  | nil => simp
  | cons first rest ih =>
    obtain ⟨name, first⟩ := first
    obtain ⟨hfirst, hrest⟩ := List.pairwise_cons.mp h
    rw [List.lookup_cons, List.mem_cons, Prod.mk.injEq]
    by_cases hkey : key = name
    · subst hkey
      have hnone : (key, value) ∉ rest := fun hmem =>
        String.lt_irrefl _ (hfirst (key, value) hmem)
      simp [hnone, eq_comm]
    · simp [beq_eq_false_iff_ne.mpr hkey, hkey, ih hrest]

theorem get?_eq_some_iff (h : KeysIncrease entries) :
    (JsonValue.object entries).get? key = some value ↔ (key, value) ∈ entries :=
  lookup_eq_some_iff h

theorem type_eq_some_iff (h : KeysIncrease entries) (text : String) :
    ((JsonValue.object entries).get? "$type").bind JsonValue.string? = some text ↔
      ("$type", .string text) ∈ entries := by
  rw [← get?_eq_some_iff h, Option.bind_eq_some_iff]
  constructor
  · rintro ⟨value, hvalue, htext⟩
    cases value with
    | string s =>
      cases htext
      exact hvalue
    | _ => cases htext
  · exact fun hvalue => ⟨.string text, hvalue, rfl⟩

theorem alternative?_eq_some_iff (h : value.Mapped) (text : String) :
    alternative? value = some text ↔ IsAlternative value text := by
  cases value with
  | string s =>
    constructor
    · intro htext
      cases htext
      exact .string text
    · intro htext
      cases htext
      rfl
  | object entries =>
    cases h with
    | object hkeys _ =>
      refine (type_eq_some_iff hkeys text).trans ⟨.type, fun htext => ?_⟩
      cases htext with
      | type isType => exact isType
  | _ =>
    constructor
    · intro htext
      cases htext
    · intro htext
      cases htext

theorem alternatives?_eq_some_iff {values : List JsonValue} (h : ∀ value ∈ values, value.Mapped)
    (texts : List String) :
    values.mapM alternative? = some texts ↔ List.Forall₂ IsAlternative values texts := by
  rw [mapM_eq_some_iff]
  exact forall₂_congr_of_mem fun value hvalue text _ => alternative?_eq_some_iff (h value hvalue) text

theorem ruleAlternatives?_object (h : (JsonValue.object entries).Mapped) (texts : List String) :
    ruleAlternatives? (.object entries) = some texts ↔ IsRule (.object entries) texts := by
  obtain ⟨hkeys, hbelow⟩ : KeysIncrease entries ∧ ∀ entry ∈ entries, entry.2.Mapped := by
    cases h with
    | object keys below => exact ⟨keys, below⟩
  have hor : ∀ value, (JsonValue.object entries).get? "$or" = some value ↔
      ("$or", value) ∈ entries := fun _ => get?_eq_some_iff hkeys
  cases hchoice : (JsonValue.object entries).get? "$or" with
  | none =>
    have hnone : ∀ entry ∈ entries, entry.1 ≠ "$or" := by
      intro entry he hkey
      have hsome := (hor entry.2).mpr (hkey ▸ he)
      simp [hchoice] at hsome
    simp only [ruleAlternatives?, hchoice, Option.map_eq_some_iff, type_eq_some_iff hkeys]
    constructor
    · rintro ⟨text, hmem, rfl⟩
      exact .type hnone hmem
    · intro hrule
      cases hrule with
      | choice isChoice each => exact (hnone _ isChoice rfl).elim
      | type noChoice isType => exact ⟨_, isType, rfl⟩
  | some value =>
    have hmem : ("$or", value) ∈ entries := (hor value).mp hchoice
    have honly : ∀ {values : List JsonValue},
        ("$or", .array values) ∈ entries → value = .array values := by
      intro values hvalues
      exact Option.some.inj (hchoice.symm.trans ((hor _).mpr hvalues))
    cases value with
    | array values =>
      have hvalues : ∀ value ∈ values, value.Mapped := by
        cases hbelow _ hmem with
        | array below => exact below
      simp only [ruleAlternatives?, hchoice, alternatives?_eq_some_iff hvalues]
      refine ⟨.choice hmem, fun hrule => ?_⟩
      cases hrule with
      | choice isChoice each =>
        cases honly isChoice
        exact each
      | type noChoice isType => exact (noChoice _ hmem rfl).elim
    | _ =>
      simp only [ruleAlternatives?, hchoice]
      refine ⟨fun htexts => (by cases htexts), fun hrule => ?_⟩
      cases hrule with
      | choice isChoice each => cases honly isChoice
      | type noChoice isType => exact (noChoice _ hmem rfl).elim

theorem ruleAlternatives?_eq_some_iff (h : value.Mapped) (texts : List String) :
    ruleAlternatives? value = some texts ↔ IsRule value texts := by
  cases value with
  | string s =>
    constructor
    · intro htexts
      cases htexts
      exact .string s
    · intro htexts
      cases htexts
      rfl
  | object entries => exact ruleAlternatives?_object h texts
  | _ =>
    constructor
    · intro htexts
      cases htexts
    · intro htexts
      cases htexts

theorem symbolOf_eq_ok_iff {entry : String × JsonValue} (h : entry.2.Mapped) (s : GrammarSymbol) :
    GrammarTable.symbolOf entry = .ok s ↔ s.name = entry.1 ∧ IsRule entry.2 s.alternatives := by
  rw [← ruleAlternatives?_eq_some_iff h, GrammarTable.symbolOf]
  cases ruleAlternatives? entry.2 with
  | none => simp
  | some texts =>
    rw [Except.ok.injEq]
    constructor
    · rintro rfl
      exact ⟨rfl, rfl⟩
    · rintro ⟨hname, htexts⟩
      cases htexts
      rw [← hname]

theorem symbolOf_eq_error_iff {entry : String × JsonValue} (h : entry.2.Mapped)
    (fault : GrammarFault) : GrammarTable.symbolOf entry = .error fault ↔
      fault = .invalidRule entry.1 ∧ ∀ texts, ¬ IsRule entry.2 texts := by
  simp only [← ruleAlternatives?_eq_some_iff h, GrammarTable.symbolOf]
  cases ruleAlternatives? entry.2 with
  | none => simp [eq_comm]
  | some texts => simp

end Rules

/-- The document has this object for its rules. -/
def JsonValue.HasRules (document : JsonValue) (rules : List (String × JsonValue)) : Prop :=
  ∃ entries, document = .object entries ∧ ("rules", .object rules) ∈ entries

/-- The smallest key whose value is no rule. -/
structure FirstOffence (rules : List (String × JsonValue)) (name : String) : Prop where
  offends : ∃ value, (name, value) ∈ rules ∧ ∀ texts, ¬ IsRule value texts
  first : ∀ rule ∈ rules, rule.1 < name → ∃ texts, IsRule rule.2 texts

/-- One symbol for each rule, with the alternatives of the rule, in the order of their names. A name is
found if and only if it is the key of a rule. -/
structure GrammarTable.Lists (g : GrammarTable) (rules : List (String × JsonValue)) : Prop where
  symbols : List.Forall₂ (fun rule s => s.name = rule.1 ∧ IsRule rule.2 s.alternatives) rules
    g.symbols
  increasing : g.symbols.Pairwise fun s t => s.name < t.name
  found : ∀ name s, g.get? name = some s ↔ s ∈ g.symbols ∧ s.name = name
  keys : ∀ name, (g.get? name).isSome = true ↔ name ∈ rules.map Prod.fst
  nonTerminal : ∀ s ∈ g.symbols, s.isTerminal = false ↔
    ∃ alternative ∈ s.alternatives, OpensReference alternative.toList

section Documents

variable {document : JsonValue} {rules : List (String × JsonValue)}

theorem mapped_of_hasRules (h : document.Mapped) (hrules : document.HasRules rules) :
    (JsonValue.object rules).Mapped := by
  obtain ⟨entries, rfl, hmem⟩ := hrules
  cases h with
  | object keys below => exact below _ hmem

theorem ofDocument_of_hasRules (h : document.Mapped) (hrules : document.HasRules rules) :
    GrammarTable.ofDocument document =
      (rules.mapM GrammarTable.symbolOf).map GrammarTable.mk := by
  obtain ⟨entries, rfl, hmem⟩ := hrules
  cases h with
  | object keys below =>
    simp only [GrammarTable.ofDocument, (get?_eq_some_iff keys).mpr hmem]

theorem ofDocument_of_no_rules (h : document.Mapped) (hrules : ¬ ∃ rules, document.HasRules rules) :
    GrammarTable.ofDocument document = .error .missingRules := by
  unfold GrammarTable.ofDocument
  split
  next rules hget =>
    cases h with
    | object keys below => exact (hrules ⟨rules, _, rfl, (get?_eq_some_iff keys).mp hget⟩).elim
    | _ => cases hget
  next => rfl

theorem symbols_eq_ok_iff (h : (JsonValue.object rules).Mapped) (symbols : List GrammarSymbol) :
    rules.mapM GrammarTable.symbolOf = .ok symbols ↔
      List.Forall₂ (fun rule s => s.name = rule.1 ∧ IsRule rule.2 s.alternatives) rules symbols := by
  cases h with
  | object keys below =>
    rw [mapM_eq_ok_iff]
    exact forall₂_congr_of_mem fun rule hrule s _ => symbolOf_eq_ok_iff (below rule hrule) s

theorem table_eq_ok_iff (symbols : Except GrammarFault (List GrammarSymbol)) (g : GrammarTable) :
    symbols.map GrammarTable.mk = .ok g ↔ symbols = .ok g.symbols := by
  cases symbols with
  | error fault => simp [Except.map]
  | ok symbols =>
    cases g
    simp [Except.map]

theorem table_eq_error_iff (symbols : Except GrammarFault (List GrammarSymbol))
    (fault : GrammarFault) :
    symbols.map GrammarTable.mk = .error fault ↔ symbols = .error fault := by
  cases symbols <;> simp [Except.map]

theorem exists_symbols_iff (h : (JsonValue.object rules).Mapped) :
    (∃ symbols, rules.mapM GrammarTable.symbolOf = .ok symbols) ↔
      ∀ rule ∈ rules, ∃ texts, IsRule rule.2 texts := by
  simp only [symbols_eq_ok_iff h]
  rw [exists_forall₂_iff]
  refine forall₂_congr fun rule _ => ⟨fun ⟨s, _, hs⟩ => ⟨_, hs⟩, fun ⟨texts, htexts⟩ => ?_⟩
  exact ⟨⟨rule.1, texts⟩, rfl, htexts⟩

/-- The first rule that is none has the smallest key of all that are none, as the keys increase. -/
theorem symbols_eq_error_iff (h : (JsonValue.object rules).Mapped) (fault : GrammarFault) :
    rules.mapM GrammarTable.symbolOf = .error fault ↔
      ∃ name, fault = .invalidRule name ∧ FirstOffence rules name := by
  obtain ⟨hkeys, hbelow⟩ : KeysIncrease rules ∧ ∀ rule ∈ rules, rule.2.Mapped := by
    cases h with
    | object keys below => exact ⟨keys, below⟩
  rw [mapM_eq_error_iff]
  constructor
  · rintro ⟨before, rule, after, rfl, hbefore, hfault⟩
    obtain ⟨rfl, hnone⟩ := (symbolOf_eq_error_iff (hbelow rule (by simp)) fault).mp hfault
    refine ⟨rule.1, rfl, ⟨rule.2, by simp, hnone⟩, fun r hr hlt => ?_⟩
    have hafter := (List.pairwise_cons.mp (List.pairwise_append.mp hkeys).2.1).1
    rcases List.mem_append.mp hr with hr' | hr'
    · obtain ⟨s, hs⟩ := hbefore r hr'
      exact ⟨_, ((symbolOf_eq_ok_iff (hbelow r hr) s).mp hs).2⟩
    · rcases List.mem_cons.mp hr' with rfl | hr'
      · exact (String.lt_irrefl _ hlt).elim
      · exact (String.lt_irrefl _ (String.lt_trans hlt (hafter r hr'))).elim
  · rintro ⟨name, rfl, ⟨value, hmem, hnone⟩, hfirst⟩
    have hfault := (symbolOf_eq_error_iff (hbelow _ hmem) _).mpr ⟨rfl, hnone⟩
    obtain ⟨before, after, rfl⟩ := List.append_of_mem hmem
    refine ⟨before, (name, value), after, rfl, fun r hr => ?_, hfault⟩
    have hlt := (List.pairwise_append.mp hkeys).2.2 r hr (name, value) List.mem_cons_self
    obtain ⟨texts, htexts⟩ := hfirst r (List.mem_append_left _ hr) hlt
    exact ⟨⟨r.1, texts⟩,
      (symbolOf_eq_ok_iff (hbelow r (List.mem_append_left _ hr)) _).mpr ⟨rfl, htexts⟩⟩

theorem lists_of_symbols {symbols : List GrammarSymbol} (hkeys : KeysIncrease rules)
    (h : List.Forall₂ (fun rule s => s.name = rule.1 ∧ IsRule rule.2 s.alternatives) rules symbols) :
    (GrammarTable.mk symbols).Lists rules := by
  have hnames : rules.map Prod.fst = symbols.map GrammarSymbol.name :=
    forall₂_map_eq_iff.mp (h.imp fun _ _ hs => hs.1.symm)
  have hincreasing : (symbols.map GrammarSymbol.name).Pairwise (· < ·) := by
    rw [← hnames]
    exact List.pairwise_map.mpr hkeys
  have hdistinct : (symbols.map GrammarSymbol.name).Nodup :=
    hincreasing.imp (S := (· ≠ ·)) fun hlt heq => String.lt_irrefl _ (heq ▸ hlt)
  refine ⟨h, List.pairwise_map.mp hincreasing, fun name s => ⟨fun hs => ?_, ?_⟩, fun name => ?_,
    fun s _ => ?_⟩
  · exact ⟨List.mem_of_find?_eq_some hs, by simpa using List.find?_some hs⟩
  · rintro ⟨hs, rfl⟩
    cases hfind : (GrammarTable.mk symbols).get? s.name with
    | none => exact absurd (List.find?_eq_none.mp hfind s hs) (by simp)
    | some t =>
      have hname : t.name = s.name := by simpa using List.find?_some hfind
      rw [List.inj_on_of_nodup_map hdistinct (List.mem_of_find?_eq_some hfind) hs hname]
  · rw [hnames, GrammarTable.get?, List.find?_isSome, List.mem_map]
    simp
  · simp [GrammarSymbol.isTerminal, references_iff]

end Documents

section Readers

variable {document? written? : String → Option JsonValue} {text : String} {document : JsonValue}
  {rules : List (String × JsonValue)}

theorem readBy_eq (h : document? text = some document) :
    GrammarTable.readBy document? text = GrammarTable.ofDocument document := by
  simp only [GrammarTable.readBy, h]

theorem readBy_missing_iff (hreader : ReadsMaps document? written?)
    (h : document? text = some document) :
    GrammarTable.readBy document? text = .error .missingRules ↔
      ¬ ∃ rules, document.HasRules rules := by
  have hmapped := hreader.mapped h
  rw [readBy_eq h]
  refine ⟨fun hmissing ⟨rules, hrules⟩ => ?_, ofDocument_of_no_rules hmapped⟩
  rw [ofDocument_of_hasRules hmapped hrules, table_eq_error_iff,
    symbols_eq_error_iff (mapped_of_hasRules hmapped hrules)] at hmissing
  obtain ⟨name, hname, _⟩ := hmissing
  cases hname

/-- Whatever reader there is for JSON texts, the rules of a document alone tell whether it gives a table,
and which. -/
theorem readBy_of_hasRules (hreader : ReadsMaps document? written?)
    (h : document? text = some document) (hrules : document.HasRules rules) :
    KeysIncrease rules ∧
      ((∃ g, GrammarTable.readBy document? text = .ok g) ↔
        ∀ rule ∈ rules, ∃ texts, IsRule rule.2 texts) ∧
      (∀ fault, GrammarTable.readBy document? text = .error fault ↔
        ∃ name, fault = .invalidRule name ∧ FirstOffence rules name) ∧
      ∀ g, GrammarTable.readBy document? text = .ok g → g.Lists rules := by
  have hmapped := hreader.mapped h
  have hrulesMapped := mapped_of_hasRules hmapped hrules
  have hkeys : KeysIncrease rules := by
    cases hrulesMapped with
    | object keys _ => exact keys
  simp only [readBy_eq h, ofDocument_of_hasRules hmapped hrules, table_eq_ok_iff,
    table_eq_error_iff]
  refine ⟨hkeys, ?_, symbols_eq_error_iff hrulesMapped, fun g hg => ?_⟩
  · rw [← exists_symbols_iff hrulesMapped]
    exact ⟨fun ⟨g, hg⟩ => ⟨g.symbols, hg⟩, fun ⟨symbols, hsymbols⟩ => ⟨⟨symbols⟩, hsymbols⟩⟩
  · exact lists_of_symbols hkeys ((symbols_eq_ok_iff hrulesMapped _).mp hg)

theorem readBy_reordered (hreader : ReadsMaps document? written?)
    (h : document? text = some document) :
    ∃ written, written? text = some written ∧ ∀ text' written',
      written? text' = some written' → written.Reordered written' →
        GrammarTable.readBy document? text' = GrammarTable.readBy document? text := by
  obtain ⟨written, hwritten⟩ := hreader.isWritten h
  refine ⟨written, hwritten, fun text' written' hwritten' hsame => ?_⟩
  rw [GrammarTable.readBy, GrammarTable.readBy, hreader.reordered hwritten hwritten' hsame]

end Readers

/-- A JSON text gives a table exactly if it has an object for its rules and each of them is a rule, and
the table lists them. Otherwise the rules are missing, or the smallest key whose value is no rule is to
blame. The order of the keys in the text does not count. -/
theorem read_validates {text : String} {document : JsonValue} (h : readJson? text = some document) :
    (GrammarTable.read text = .error .missingRules ↔ ¬ ∃ rules, document.HasRules rules) ∧
      (∀ rules, document.HasRules rules → KeysIncrease rules ∧
        ((∃ g, GrammarTable.read text = .ok g) ↔ ∀ rule ∈ rules, ∃ texts, IsRule rule.2 texts) ∧
        (∀ fault, GrammarTable.read text = .error fault ↔
          ∃ name, fault = .invalidRule name ∧ FirstOffence rules name) ∧
        ∀ g, GrammarTable.read text = .ok g → g.Lists rules) ∧
      ∃ written, writtenJson? text = some written ∧ ∀ text' written',
        writtenJson? text' = some written' → written.Reordered written' →
          GrammarTable.read text' = GrammarTable.read text :=
  ⟨readBy_missing_iff readsMaps_readJson h, fun _ hrules =>
    readBy_of_hasRules readsMaps_readJson h hrules, readBy_reordered readsMaps_readJson h⟩

/-- Neither of these rules is one. The smaller key is to blame, although it comes later. -/
theorem read_validates_laterKey :
    ∃ document rules, readJson? "\x7b\"rules\":\x7b\"b\":1,\"a\":0\x7d\x7d" = some document ∧
      document.HasRules rules ∧ FirstOffence rules "a" := by
  obtain ⟨hjson, hfault⟩ : (readJson? "\x7b\"rules\":\x7b\"b\":1,\"a\":0\x7d\x7d").isSome = true ∧
      (match GrammarTable.read "\x7b\"rules\":\x7b\"b\":1,\"a\":0\x7d\x7d" with
        | .error fault => some fault
        | .ok _ => none) = some (.invalidRule "a") := by
    decide +kernel
  obtain ⟨document, hdocument⟩ := Option.isSome_iff_exists.mp hjson
  obtain ⟨hmissing, hrules, _⟩ := read_validates hdocument
  split at hfault
  next fault hread =>
    cases hfault
    rw [hread] at hmissing hrules
    obtain ⟨rules, hhas⟩ : ∃ rules, document.HasRules rules := by
      by_contra hnone
      cases hmissing.mpr hnone
    obtain ⟨_, _, herror, _⟩ := hrules rules hhas
    obtain ⟨name, hname, hfirst⟩ := (herror _).mp rfl
    cases hname
    exact ⟨document, rules, hdocument, hhas, hfirst⟩
  next => cases hfault

end SlsLang
