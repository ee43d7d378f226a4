import SlsLang.Proofs.LineLocality
import SlsLang.Proofs.NoticeLines

namespace SlsLang

def Recognition.relocate (g : Place → Place) (r : Recognition) : Recognition :=
  ⟨r.constructs.map (Construct.relocate g), r.diagnostics.map (Diagnostic.relocate g)⟩

/-- A change of readings that moves their places by `g` and leaves what is recognized of them. -/
structure Moves (g : Place → Place) (f : Reading → Reading) : Prop where
  token : ∀ r, (f r).token = r.token.relocate g
  diagnostics : ∀ r, (f r).diagnostics = r.diagnostics.map (Diagnostic.relocate g)

theorem moves_relocate (g : Place → Place) : Moves g (Reading.relocate g) :=
  ⟨fun _ => rfl, Reading.diagnostics_relocate g⟩

section Recognition

variable {g : Place → Place} {f : Reading → Reading} (h : Moves g f)

include h

theorem Moves.map_token (rs : List Reading) :
    (rs.map f).map Reading.token = (rs.map Reading.token).map (Token.relocate g) := by
  rw [List.map_map, List.map_map]
  exact List.map_congr_left fun r _ => h.token r

theorem Moves.constructs (a : Awaiting) (rs : List Reading) :
    (a.relocate g).constructs ((rs.map f).map Reading.token) =
      (a.constructs (rs.map Reading.token)).map (Construct.relocate g) := by
  rw [h.map_token, Awaiting.constructs, Awaiting.responses_relocate, List.filterMap_map,
    Awaiting.constructs, List.map_filterMap]
  rfl

theorem Moves.blamed (a : Awaiting) (rs : List Reading) :
    blamed (a.relocate g) (rs.map f) = (blamed a rs).map (Diagnostic.relocate g) := by
  induction rs generalizing a with
  | nil => rfl
  | cons r rs ih =>
    have hanswer : (a.relocate g).respond (f r).token = (a.respond r.token).relocate g := by
      rw [h.token, Awaiting.respond_relocate]
    rw [List.map_cons, blamed_cons, blamed_cons, hanswer, h.diagnostics, List.map_append,
      List.map_append, ← ih]
    rfl

/-- Constructs and faults move with the readings. -/
theorem Moves.recognize (rs : List Reading) :
    recognize (rs.map f) = (recognize rs).relocate g := by
  have hconstructs := h.constructs .function rs
  have hblamed := h.blamed .function rs
  exact congrArg₂ Recognition.mk hconstructs hblamed

end Recognition

section Results

variable (g : Place → Place)

theorem declaredSymbols_relocate (file : String) (cs : List Construct) :
    declaredSymbols file (cs.map (Construct.relocate g)) = declaredSymbols file cs := by
  simp only [declaredSymbols, List.filterMap_map, Function.comp_def, declared?_relocate]

theorem notices_relocate (c : Construct) : (c.relocate g).notices = c.notices := by
  cases c with
  | statement s =>
    cases s with
    | declaration name type init? => cases init? <;> rfl
    | assignment target value => rfl
    | call head callee arguments =>
      simp only [Construct.relocate, Statement.relocate, Construct.notices, Statement.notices,
        List.map_map]
      rfl
  | _ => rfl

theorem flatMap_notices_relocate (cs : List Construct) :
    (cs.map (Construct.relocate g)).flatMap Construct.notices = cs.flatMap Construct.notices := by
  simp only [List.flatMap_map, notices_relocate]

end Results

end SlsLang
