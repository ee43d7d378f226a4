import SlsLang.JsonReader

namespace SlsLang

section Entries

variable {V : Type} {entry : String × V} {entries entries' : List (String × V)}

theorem perm_insertEntry (h : ∀ e ∈ entries, e.1 ≠ entry.1) :
    (insertEntry entry entries).Perm (entry :: entries) := by
  induction entries with
  | nil => exact .refl _
  | cons first rest ih =>
    obtain ⟨hfirst, hrest⟩ := List.forall_mem_cons.mp h
    unfold insertEntry
    split
    next => exact .refl _
    next =>
      rw [if_neg (Ne.symm hfirst)]
      exact ((ih hrest).cons first).trans (.swap entry first rest)

theorem perm_sortedEntries (h : (entries.map Prod.fst).Nodup) :
    (sortedEntries entries).Perm entries := by
  induction entries with
  | nil => exact .refl _
  | cons entry rest ih =>
    obtain ⟨hentry, hrest⟩ := List.nodup_cons.mp h
    have hperm := ih hrest
    refine (perm_insertEntry fun e he heq => ?_).trans (hperm.cons entry)
    exact hentry (heq ▸ List.mem_map_of_mem (hperm.mem_iff.mp he))

/-- Entries with one key each come into the same order, however they were put. -/
theorem sortedEntries_congr (h : entries.Perm entries') (hkeys : (entries.map Prod.fst).Nodup) :
    sortedEntries entries = sortedEntries entries' := by
  have hkeys' : (entries'.map Prod.fst).Nodup := (h.map Prod.fst).nodup_iff.mp hkeys
  refine List.Perm.eq_of_pairwise (fun a b _ _ hab hba => ?_) (keysIncrease_sortedEntries entries)
    (keysIncrease_sortedEntries entries')
    ((perm_sortedEntries hkeys).trans (h.trans (perm_sortedEntries hkeys').symm))
  exact (String.lt_irrefl _ (String.lt_trans hab hba)).elim

theorem mem_of_mem_sortedEntries {e : String × V} (h : e ∈ sortedEntries entries) :
    e ∈ entries := by
  induction entries with
  | nil => exact h
  | cons entry rest ih =>
    rcases mem_insertEntry h with rfl | h
    · exact List.mem_cons_self
    · exact List.mem_cons_of_mem _ (ih h)

end Entries

namespace JsonValue

mutual

/-- A value with the entries of every object in the order of their keys. -/
def sorted : JsonValue → JsonValue
  | array elements => .array (sortedAll elements)
  | object entries => .ofEntries (sortedBelow entries)
  | null => .null
  | boolean value => .boolean value
  | number value => .number value
  | string value => .string value

def sortedAll : List JsonValue → List JsonValue
  | [] => []
  | value :: values => value.sorted :: sortedAll values

def sortedBelow : List (String × JsonValue) → List (String × JsonValue)
  | [] => []
  | (key, value) :: entries => (key, value.sorted) :: sortedBelow entries

end

theorem sortedAll_eq_map (values : List JsonValue) : sortedAll values = values.map sorted := by
  induction values with
  | nil => rw [sortedAll, List.map_nil]
  | cons value values ih => rw [sortedAll, ih, List.map_cons]

theorem sortedBelow_eq_map (entries : List (String × JsonValue)) :
    sortedBelow entries = entries.map fun e => (e.1, e.2.sorted) := by
  induction entries with
  | nil => rw [sortedBelow, List.map_nil]
  | cons entry entries ih => rw [sortedBelow, ih, List.map_cons]

/-- Every object within a value is a map: its keys increase. -/
inductive Mapped : JsonValue → Prop
  | null : Mapped .null
  | boolean (value : Bool) : Mapped (.boolean value)
  | number (value : JsonNumber) : Mapped (.number value)
  | string (value : String) : Mapped (.string value)
  | array {elements : List JsonValue} (below : ∀ element ∈ elements, Mapped element) :
    Mapped (.array elements)
  | object {entries : List (String × JsonValue)} (keys : KeysIncrease entries)
    (below : ∀ entry ∈ entries, Mapped entry.2) : Mapped (.object entries)

mutual

theorem mapped_sorted (value : JsonValue) : value.sorted.Mapped := by
  cases value with
  | null => exact .null
  | boolean value => exact .boolean value
  | number value => exact .number value
  | string value => exact .string value
  | array elements => exact .array (mapped_sortedAll elements)
  | object entries =>
    exact .object (keysIncrease_sortedEntries _)
      fun entry he => mapped_sortedBelow entries entry (mem_of_mem_sortedEntries he)

theorem mapped_sortedAll (values : List JsonValue) :
    ∀ value ∈ sortedAll values, Mapped value := by
  cases values with
  | nil => simp [sortedAll]
  | cons value values =>
    rw [sortedAll]
    exact List.forall_mem_cons.mpr ⟨mapped_sorted value, mapped_sortedAll values⟩

theorem mapped_sortedBelow (entries : List (String × JsonValue)) :
    ∀ entry ∈ sortedBelow entries, Mapped entry.2 := by
  match entries with
  | [] => simp [sortedBelow]
  | (key, value) :: entries =>
    rw [sortedBelow]
    exact List.forall_mem_cons.mpr ⟨mapped_sorted value, mapped_sortedBelow entries⟩

end

/-- The same value but for the order of the keys in its objects, where no key comes twice. -/
inductive Reordered : JsonValue → JsonValue → Prop
  | refl (value : JsonValue) : Reordered value value
  | entries {entries entries' : List (String × JsonValue)} (perm : entries.Perm entries')
    (distinct : (entries.map Prod.fst).Nodup) : Reordered (.object entries) (.object entries')
  | element (before after : List JsonValue) {value value' : JsonValue}
    (below : Reordered value value') :
    Reordered (.array (before ++ value :: after)) (.array (before ++ value' :: after))
  | entry (before after : List (String × JsonValue)) (key : String) {value value' : JsonValue}
    (below : Reordered value value') :
    Reordered (.object (before ++ (key, value) :: after))
      (.object (before ++ (key, value') :: after))
  | trans {a b c : JsonValue} (first : Reordered a b) (rest : Reordered b c) : Reordered a c

theorem Reordered.sorted_eq {value value' : JsonValue} (h : value.Reordered value') :
    value.sorted = value'.sorted := by
  induction h with
  | refl value => rfl
  | entries perm distinct =>
    have hkeys : ∀ entries : List (String × JsonValue),
        (entries.map fun e => (e.1, e.2.sorted)).map Prod.fst = entries.map Prod.fst := by
      intro entries
      rw [List.map_map]
      rfl
    rw [sorted, sorted, sortedBelow_eq_map, sortedBelow_eq_map, ofEntries, ofEntries,
      sortedEntries_congr (perm.map _) (by rwa [hkeys])]
  | element before after below ih =>
    simp only [sorted, sortedAll_eq_map, List.map_append, List.map_cons, ih]
  | entry before after key below ih =>
    simp only [sorted, sortedBelow_eq_map, List.map_append, List.map_cons, ih]
  | trans first rest ih ih' => exact ih.trans ih'

end JsonValue

def JsonFrame.sorted : JsonFrame → JsonFrame
  | array elements => .array (elements.map JsonValue.sorted)
  | object entries key => .object (entries.map fun e => (e.1, e.2.sorted)) key

namespace JsonState

def sorted : JsonState → JsonState
  | value frames => .value (frames.map JsonFrame.sorted)
  | firstElement frames => .firstElement (frames.map JsonFrame.sorted)
  | firstKey frames => .firstKey (frames.map JsonFrame.sorted)
  | key frames entries =>
    .key (frames.map JsonFrame.sorted) (entries.map fun e => (e.1, e.2.sorted))
  | colon frames entries name =>
    .colon (frames.map JsonFrame.sorted) (entries.map fun e => (e.1, e.2.sorted)) name
  | separator frames entry => .separator (frames.map JsonFrame.sorted) entry.sorted

/-- Reading on, with every object left as it is written. -/
def writtenStep? (state : JsonState) (token : JsonToken) : Option JsonState :=
  match state, token with
  | separator (.object entries name :: frames) entry, .objectEnd =>
    some (separator frames (.object ((name, entry) :: entries).reverse))
  | state, token => state.step? token

end JsonState

/-- The document of a JSON text as it is written: all entries of its objects, in the order of the
text. -/
def writtenJson? (text : String) : Option JsonValue := do
  let tokens ← JsonToken.all? text.toList
  let state ← tokens.foldlM JsonState.writtenStep? (.value [])
  state.document?

namespace JsonState

theorem startValue?_sorted (frames : List JsonFrame) {token : JsonToken}
    (h : ∀ word, token = .bare word → word.sorted = word) :
    startValue? (frames.map JsonFrame.sorted) token =
      (startValue? frames token).map JsonState.sorted := by
  cases token with
  | bare word => simp [startValue?, sorted, h word rfl]
  | arrayStart | objectStart =>
    simp only [startValue?, List.length_map]
    split <;> rfl
  | string s => simp [startValue?, sorted, JsonValue.sorted]
  | _ => rfl

theorem step?_sorted (state : JsonState) {token : JsonToken}
    (h : ∀ word, token = .bare word → word.sorted = word) :
    state.sorted.step? token = (state.writtenStep? token).map JsonState.sorted := by
  have hstart := fun frames => startValue?_sorted frames h
  cases state with
  | value frames => exact hstart frames
  | firstElement frames =>
    cases token with
    | arrayEnd => simp [step?, writtenStep?, sorted, JsonValue.sorted, JsonValue.sortedAll]
    | _ => exact hstart (.array [] :: frames)
  | firstKey frames =>
    cases token with
    | objectEnd =>
      simp [step?, writtenStep?, sorted, JsonValue.sorted, JsonValue.sortedBelow,
        JsonValue.ofEntries, sortedEntries]
    | _ => rfl
  | key frames entries => cases token <;> rfl
  | colon frames entries name => cases token <;> rfl
  | separator frames entry =>
    cases frames with
    | nil => cases token <;> rfl
    | cons frame frames =>
      cases frame with
      | array elements =>
        cases token with
        | arrayEnd =>
          simp [step?, writtenStep?, sorted, JsonFrame.sorted, JsonValue.sorted,
            JsonValue.sortedAll_eq_map]
        | _ => rfl
      | object entries name =>
        cases token with
        | objectEnd =>
          simp [step?, writtenStep?, sorted, JsonFrame.sorted, JsonValue.sorted,
            JsonValue.sortedBelow_eq_map]
        | _ => rfl

theorem foldlM_step?_sorted (state : JsonState) {tokens : List JsonToken}
    (h : ∀ token ∈ tokens, ∀ word, token = .bare word → word.sorted = word) :
    tokens.foldlM step? state.sorted = (tokens.foldlM writtenStep? state).map JsonState.sorted := by
  induction tokens generalizing state with
  | nil => rfl
  | cons token tokens ih =>
    obtain ⟨htoken, htokens⟩ := List.forall_mem_cons.mp h
    rw [List.foldlM_cons, List.foldlM_cons, step?_sorted state htoken]
    cases state.writtenStep? token with
    | none => rfl
    | some next => exact ih next htokens

theorem document?_sorted (state : JsonState) :
    state.sorted.document? = state.document?.map JsonValue.sorted := by
  cases state with
  | separator frames entry => cases frames <;> rfl
  | _ => rfl

end JsonState

namespace JsonToken

/-- A word of a text is no array and no object. -/
theorem sorted_of_ofBare? {spelling : List Char} {word : JsonValue}
    (h : ofBare? spelling = some (.bare word)) : word.sorted = word := by
  unfold ofBare? at h
  split at h
  · cases h
    rfl
  · cases h
    rfl
  · cases h
    rfl
  · split at h
    · split at h
      · cases h
        rfl
      · cases h
    · cases h

theorem sorted_of_next? {c : Char} {r rest : List Char} {word : JsonValue}
    (h : next? c r = some (.bare word, rest)) : word.sorted = word := by
  unfold next? at h
  split at h
  · split at h
    · obtain ⟨_, _, heq⟩ := Option.map_eq_some_iff.mp h
      cases heq
    · cases h
  split at h
  · obtain ⟨token, htoken, heq⟩ := Option.map_eq_some_iff.mp h
    cases heq
    exact sorted_of_ofBare? htoken
  · obtain ⟨token, htoken, heq⟩ := Option.map_eq_some_iff.mp h
    cases heq
    unfold ofMark? at htoken
    split at htoken <;> cases htoken

theorem sorted_of_mem_allAfter {done tokens : List JsonToken} {cs : List Char}
    (hdone : ∀ token ∈ done, ∀ word, token = .bare word → word.sorted = word)
    (h : allAfter done cs = some tokens) :
    ∀ token ∈ tokens, ∀ word, token = .bare word → word.sorted = word := by
  fun_induction allAfter done cs with
  | case1 done cs hc =>
    cases h
    exact fun token ht => hdone token (List.mem_reverse.mp ht)
  | case2 done cs c r hc token rest hnext ih =>
    refine ih (List.forall_mem_cons.mpr ⟨fun word hword => ?_, hdone⟩) h
    exact sorted_of_next? (hword ▸ hnext)
  | case3 => cases h

end JsonToken

/-- A text is read to its document as it is written, with every object in the order of its keys. -/
theorem readJson?_eq (text : String) : readJson? text = (writtenJson? text).map JsonValue.sorted := by
  unfold readJson? writtenJson?
  cases hall : JsonToken.all? text.toList with
  | none => rfl
  | some tokens =>
    have hbare := JsonToken.sorted_of_mem_allAfter (by simp) hall
    have hread := JsonState.foldlM_step?_sorted (.value []) hbare
    simp only [Option.bind_eq_bind, Option.bind_some]
    rw [JsonState.sorted, List.map_nil] at hread
    rw [hread]
    cases tokens.foldlM JsonState.writtenStep? (.value []) with
    | none => rfl
    | some state => exact state.document?_sorted

/-- Whatever is read has maps for objects. -/
theorem mapped_of_readJson? {text : String} {document : JsonValue}
    (h : readJson? text = some document) : document.Mapped := by
  rw [readJson?_eq] at h
  obtain ⟨written, _, rfl⟩ := Option.map_eq_some_iff.mp h
  exact written.mapped_sorted

/-- A reader of JSON texts reads them to documents with maps for objects, and whatever it reads is
written in the text as `written?` says, where the order of keys does not count. -/
structure ReadsMaps (document? written? : String → Option JsonValue) : Prop where
  mapped : ∀ {text document}, document? text = some document → document.Mapped
  isWritten : ∀ {text document}, document? text = some document →
    ∃ written, written? text = some written
  reordered : ∀ {text text' written written'}, written? text = some written →
    written? text' = some written' → written.Reordered written' → document? text = document? text'

theorem readsMaps_readJson : ReadsMaps readJson? writtenJson? where
  mapped h := mapped_of_readJson? h
  isWritten := by
    intro text document h
    rw [readJson?_eq] at h
    obtain ⟨written, hwritten, -⟩ := Option.map_eq_some_iff.mp h
    exact ⟨written, hwritten⟩
  reordered h h' hsame := by
    rw [readJson?_eq, readJson?_eq, h, h', Option.map_some, Option.map_some, hsame.sorted_eq]

end SlsLang
