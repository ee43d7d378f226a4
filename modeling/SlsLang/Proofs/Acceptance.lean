import SlsLang.Proofs.Relocation

namespace SlsLang

open Awaiting

/-- Tokens that are taken without fault from one state to another, and what they complete. -/
inductive Accepts : Awaiting → List Token → List Construct → Awaiting → Prop
  | nil {a : Awaiting} : Accepts a [] [] a
  | pass {a b c : Awaiting} {t : Token} {ts : List Token} {cs : List Construct}
      (answer : a.respond t = .pass b) (tail : Accepts b ts cs c) : Accepts a (t :: ts) cs c
  | accept {a b c : Awaiting} {t : Token} {k : Construct} {ts : List Token} {cs : List Construct}
      (answer : a.respond t = .accept k b) (tail : Accepts b ts cs c) :
      Accepts a (t :: ts) (k :: cs) c

theorem Accepts.append {a b c : Awaiting} {ts us : List Token} {cs ds : List Construct}
    (h : Accepts a ts cs b) (k : Accepts b us ds c) : Accepts a (ts ++ us) (cs ++ ds) c := by
  induction h with
  | nil => exact k
  | pass answer _ ih => exact .pass answer (ih k)
  | accept answer _ ih => exact .accept answer (ih k)

theorem Accepts.responses {a b : Awaiting} {ts : List Token} {cs : List Construct}
    (h : Accepts a ts cs b) : (a.responses ts).filterMap Response.construct? = cs ∧
      ∀ r ∈ a.responses ts, r.faults = [] := by
  induction h with
  | nil => simp [responses_nil]
  | pass answer _ ih => simpa [responses_cons, answer, Response.pass] using ih
  | accept answer _ ih => simpa [responses_cons, answer, Response.accept] using ih

/-- A token that goes on with the statement it stands in. -/
structure Token.Inner (t : Token) : Prop where
  comment : t.isComment = false
  endOfFile : t.isEndOfFile = false
  semicolon : t.isPunctuation ";" = false
  brace : t.isPunctuation "\x7d" = false

theorem respond_inner {t : Token} (h : t.Inner) (run : List Token) :
    (statement run).respond t = .pass (.statement (t :: run)) := by
  simp [respond, respondTo, h.comment, h.endOfFile, h.semicolon, h.brace]

theorem accepts_run {ts : List Token} (h : ∀ t ∈ ts, t.Inner) (run : List Token) :
    Accepts (.statement run) ts [] (.statement (ts.reverse ++ run)) := by
  induction ts generalizing run with
  | nil => exact .nil
  | cons t ts ih =>
    have htail := ih (fun u hu => h u (List.mem_cons_of_mem t hu)) (t :: run)
    rw [List.reverse_cons, List.append_assoc]
    exact .pass (respond_inner (h t (by simp)) run) htail

section Recognition

variable {rs : List Reading}

theorem diagnostics_recognize_eq_nil (hd : rs.flatMap Reading.diagnostics = [])
    (hf : ∀ r ∈ Awaiting.function.responses (rs.map Reading.token), r.faults = []) :
    (recognize rs).diagnostics = [] := by
  rw [recognize, List.flatten_eq_nil_iff, ← List.map_uncurry_zip_eq_zipWith]
  intro ds hds
  obtain ⟨⟨r, response⟩, hz, rfl⟩ := List.mem_map.mp hds
  obtain ⟨hr, hresponse⟩ := List.of_mem_zip hz
  have hr' := List.flatMap_eq_nil_iff.mp hd r hr
  have hf' := hf response hresponse
  show r.diagnostics ++ response.faults = []
  rw [hr', hf', List.append_nil]

/-- Whether tokens are taken, and for what, can be seen with all of them moved to one place. -/
theorem recognize_of_accepts {here : Place} {ts : List Token} {cs : List Construct}
    {a : Awaiting} (hd : rs.flatMap Reading.diagnostics = [])
    (ht : rs.map (fun r => r.token.relocate fun _ => here) = ts)
    (h : Accepts .function ts cs a) :
    (recognize rs).constructs.map (Construct.relocate fun _ => here) = cs ∧
      (recognize rs).diagnostics = [] := by
  have hmoved := Awaiting.responses_relocate (fun _ => here) .function (rs.map Reading.token)
  rw [List.map_map] at hmoved
  obtain ⟨hconstructs, hfaults⟩ := h.responses
  have hresponses : Awaiting.function.responses ts =
      (Awaiting.function.responses (rs.map Reading.token)).map (Response.relocate fun _ => here) := by
    rw [← ht]
    exact hmoved
  rw [hresponses] at hconstructs hfaults
  constructor
  · rw [List.filterMap_map] at hconstructs
    rw [recognize, List.map_filterMap]
    exact hconstructs
  · apply diagnostics_recognize_eq_nil hd
    intro r hr
    have hmap := hfaults (r.relocate fun _ => here) (List.mem_map_of_mem hr)
    exact List.map_eq_nil_iff.mp hmap

end Recognition

end SlsLang
