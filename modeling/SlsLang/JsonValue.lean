import SlsLang.JsonNumber

namespace SlsLang

/-- A JSON document. An object that is read holds its entries in the order of their keys. -/
inductive JsonValue
  | null
  | boolean (value : Bool)
  | number (value : JsonNumber)
  | string (value : String)
  | array (elements : List JsonValue)
  | object (entries : List (String × JsonValue))
deriving Repr

/-- Puts an entry in its place among sorted entries, unless its key is there. -/
def insertEntry {V : Type} (entry : String × V) : List (String × V) → List (String × V)
  | [] => [entry]
  | first :: rest =>
    if entry.1 < first.1 then entry :: first :: rest
    else if entry.1 = first.1 then first :: rest
    else first :: insertEntry entry rest

/-- Entries in the order of their keys. Of several with one key, the last one counts. -/
def sortedEntries {V : Type} (entries : List (String × V)) : List (String × V) :=
  entries.foldr insertEntry []

/-- Keys in increasing order, so that none is there twice. -/
def KeysIncrease {V : Type} (entries : List (String × V)) : Prop :=
  entries.Pairwise fun a b => a.1 < b.1

theorem mem_insertEntry {V : Type} {entry e : String × V} {entries : List (String × V)}
    (h : e ∈ insertEntry entry entries) : e = entry ∨ e ∈ entries := by
  induction entries with
  | nil => exact Or.inl (List.mem_singleton.mp h)
  | cons first rest ih =>
    unfold insertEntry at h
    split at h
    · exact List.mem_cons.mp h
    split at h
    · exact Or.inr h
    · rcases List.mem_cons.mp h with he | hr
      · exact Or.inr (List.mem_cons.mpr (Or.inl he))
      · exact (ih hr).imp_right (List.mem_cons_of_mem first)

theorem keysIncrease_insertEntry {V : Type} (entry : String × V) {entries : List (String × V)}
    (h : KeysIncrease entries) : KeysIncrease (insertEntry entry entries) := by
  induction entries with
  | nil => exact List.pairwise_singleton _ _
  | cons first rest ih =>
    obtain ⟨hf, hr⟩ := List.pairwise_cons.mp h
    unfold insertEntry
    split
    next hlt =>
      refine List.pairwise_cons.mpr ⟨fun e he => ?_, h⟩
      rcases List.mem_cons.mp he with he | he
      · exact he ▸ hlt
      · exact String.lt_trans hlt (hf e he)
    split
    · exact h
    next hlt hne =>
      refine List.pairwise_cons.mpr ⟨fun e he => ?_, ih hr⟩
      rcases mem_insertEntry he with he | he
      · exact he ▸ Std.lt_of_le_of_ne hlt (Ne.symm hne)
      · exact hf e he

theorem keysIncrease_sortedEntries {V : Type} (entries : List (String × V)) :
    KeysIncrease (sortedEntries entries) := by
  induction entries with
  | nil => exact List.Pairwise.nil
  | cons entry rest ih => exact keysIncrease_insertEntry entry ih

namespace JsonValue

def ofEntries (entries : List (String × JsonValue)) : JsonValue := .object (sortedEntries entries)

def get? (key : String) : JsonValue → Option JsonValue
  | .object entries => entries.lookup key
  | _ => none

def string? : JsonValue → Option String
  | .string s => some s
  | _ => none

end JsonValue

end SlsLang
