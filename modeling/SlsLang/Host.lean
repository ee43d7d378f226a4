import SlsLang.Diagnostic
import SlsLang.JsonReader

namespace SlsLang

/-- What a run is built on. A reader of JSON texts has words of its own for a text that is none.
Lines are padded up to some bound at most, if there is one, and a run that has to pad further breaks
off with a last message. -/
structure Host where
  document? : String → Option JsonValue
  complaint : String → String
  maxPadding? : Option Nat
  lastMessage : String

namespace Host

/-- A reader that does not say what is wrong with a text, and no bound. -/
def plain : Host := ⟨readJson?, fun _ => "", none, ""⟩

/-- The caret can be put under its column. -/
def pads (host : Host) (d : Diagnostic) : Bool :=
  host.maxPadding?.all (d.place.column - 1 ≤ ·)

/-- Diagnostics as far as they can be written, and whether all of them can. Where a caret cannot be
put under its column, the lines before it stand already. -/
def write (host : Host) : List Diagnostic → String × Bool
  | [] => ("", true)
  | d :: ds =>
    if host.pads d then
      let rest := host.write ds
      (unlines d.lines ++ rest.1, rest.2)
    else (unlines [d.header, d.place.sourceLine], false)

variable {host : Host} {ds : List Diagnostic}

theorem write_whole : (host.write ds).2 = ds.all host.pads := by
  induction ds with
  | nil => rfl
  | cons d ds ih => cases hd : host.pads d <;> simp [write, hd, ih]

/-- What is written is the rendered text, if all of it can be written. -/
theorem write_text (h : ds.all host.pads = true) : (host.write ds).1 = Diagnostic.render ds := by
  induction ds with
  | nil => rfl
  | cons d ds ih =>
    rw [List.all_cons, Bool.and_eq_true] at h
    have hfirst : (host.write (d :: ds)).1 = unlines d.lines ++ (host.write ds).1 := by
      rw [write, if_pos h.1]
    rw [hfirst, ih h.2, Diagnostic.render, Diagnostic.render, List.flatMap_cons, unlines_append]

end Host

end SlsLang
