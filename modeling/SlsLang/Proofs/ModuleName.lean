import Mathlib.Data.List.TakeWhile
import SlsLang.Proofs.Lists
import SlsLang.SourcePath

namespace SlsLang

/-- What may stand behind the last name of a path: slashes, and single dots between them. -/
inductive LeadsNowhere : List Char → Prop
  | nil : LeadsNowhere []
  | slash {cs : List Char} (tail : LeadsNowhere cs) : LeadsNowhere ('/' :: cs)
  | dot {cs : List Char} (tail : LeadsNowhere cs) : LeadsNowhere ('/' :: '.' :: cs)

/-- The path goes on to this name and no further. One more slash is put before the path, so that the
first name stands behind a slash as all others do. -/
structure EndsInName (path name : List Char) : Prop where
  noSlash : '/' ∉ name
  ne_nil : name ≠ []
  ne_dot : name ≠ ['.']
  ends : ∃ front back, '/' :: path = front ++ '/' :: (name ++ back) ∧ LeadsNowhere back

/-- A file name without what stands behind its last dot. A dot at its start is no such dot. -/
inductive IsStem (name : List Char) : List Char → Prop
  | cut {stem extension : List Char} (split : name = stem ++ '.' :: extension)
    (last : '.' ∉ extension) (ne_nil : stem ≠ []) : IsStem name stem
  | whole (undotted : '.' ∉ name.tail) : IsStem name name

/-- The module that a path names. A path that ends in no name, or one directory up, names the module
with the empty name. -/
inductive NamesModule (path : List Char) : List Char → Prop
  | file {name stem : List Char} (ends : EndsInName path name) (ne_up : name ≠ ['.', '.'])
    (isStem : IsStem name stem) : NamesModule path stem
  | up (ends : EndsInName path ['.', '.']) : NamesModule path []
  | nameless (nowhere : LeadsNowhere ('/' :: path)) : NamesModule path []

theorem isStem_dropExtension (name : List Char) : IsStem name (dropExtension name) := by
  have hname := List.takeWhile_append_dropWhile (p := (· != '.')) (l := name.reverse)
  have hextension : '.' ∉ (name.reverse.takeWhile (· != '.')).reverse := by
    intro hd
    have hne := List.mem_takeWhile_imp (List.mem_reverse.mp hd)
    simp at hne
  have hfirst := List.head?_dropWhile_not (· != '.') name.reverse
  rw [dropExtension]
  cases hrest : name.reverse.dropWhile (· != '.') with
  | nil =>
    -- There is no dot at all.
    rw [hrest, List.append_nil] at hname
    rw [hname, List.reverse_reverse] at hextension
    exact .whole fun hd => hextension (List.mem_of_mem_tail hd)
  | cons c before =>
    obtain rfl : c = '.' := by simpa [hrest] using hfirst
    rw [hrest] at hname
    have hsplit := congrArg List.reverse hname.symm
    rw [List.reverse_reverse, List.reverse_append, List.reverse_cons, List.append_assoc,
      List.singleton_append] at hsplit
    rw [List.tail_cons]
    cases hstem : before.reverse with
    | nil =>
      rw [hstem, List.nil_append] at hsplit
      refine .whole ?_
      rw [hsplit]
      exact hextension
    | cons d stem =>
      rw [hstem] at hsplit
      exact .cut hsplit hextension (List.cons_ne_nil d stem)

/-- A name has one stem, for it has one last dot. -/
theorem IsStem.unique {name stem stem' : List Char} (h : IsStem name stem)
    (h' : IsStem name stem') : stem = stem' := by
  have hcut : ∀ {stem extension : List Char}, name = stem ++ '.' :: extension → stem ≠ [] →
      '.' ∈ name.tail := by
    intro stem extension hsplit hne
    obtain ⟨c, stem, rfl⟩ := List.exists_cons_of_ne_nil hne
    simp [hsplit]
  cases h with
  | whole undotted =>
    cases h' with
    | whole => rfl
    | cut split _ ne_nil => exact (undotted (hcut split ne_nil)).elim
  | cut split last ne_nil =>
    cases h' with
    | whole undotted => exact (undotted (hcut split ne_nil)).elim
    | cut split' last' _ =>
      exact (eq_of_append_cons_last last last' (split.symm.trans split')).1

theorem pathPieces_ne_nil (cs : List Char) : pathPieces cs ≠ [] := by
  cases cs with
  | nil => simp [pathPieces]
  | cons c r =>
    unfold pathPieces
    split
    · simp
    · split <;> simp

theorem pathPieces_cons_of_ne {c : Char} (hc : c ≠ '/') (r : List Char) :
    ∃ piece pieces, pathPieces r = piece :: pieces ∧
      pathPieces (c :: r) = (c :: piece) :: pieces := by
  obtain ⟨piece, pieces, hr⟩ := List.exists_cons_of_ne_nil (pathPieces_ne_nil r)
  exact ⟨piece, pieces, hr, by rw [pathPieces, if_neg hc, hr]⟩

/-- The pieces of a path with a slash before each make up the path with a slash before it. -/
theorem flatMap_pathPieces (cs : List Char) :
    (pathPieces cs).flatMap ('/' :: ·) = '/' :: cs := by
  induction cs with
  | nil => rfl
  | cons c r ih =>
    by_cases hc : c = '/'
    · rw [pathPieces, if_pos hc, List.flatMap_cons, ih, hc]
      rfl
    · obtain ⟨piece, pieces, hr, hcons⟩ := pathPieces_cons_of_ne hc r
      rw [hr, List.flatMap_cons, List.cons_append, List.cons_inj_right] at ih
      rw [hcons, List.flatMap_cons, List.cons_append, List.cons_append, ih]

theorem not_slash_mem_pathPieces (cs : List Char) : ∀ piece ∈ pathPieces cs, '/' ∉ piece := by
  induction cs with
  | nil => simp [pathPieces]
  | cons c r ih =>
    by_cases hc : c = '/'
    · rw [pathPieces, if_pos hc]
      exact List.forall_mem_cons.mpr ⟨List.not_mem_nil, ih⟩
    · obtain ⟨piece, pieces, hr, hcons⟩ := pathPieces_cons_of_ne hc r
      rw [hr] at ih
      obtain ⟨hpiece, hpieces⟩ := List.forall_mem_cons.mp ih
      rw [hcons]
      exact List.forall_mem_cons.mpr ⟨by simp [hpiece, Ne.symm hc], hpieces⟩

theorem pathPieces_append (cs r : List Char) :
    pathPieces (cs ++ '/' :: r) = pathPieces cs ++ pathPieces r := by
  induction cs with
  | nil => simp [pathPieces]
  | cons c cs ih =>
    by_cases hc : c = '/'
    · rw [List.cons_append, pathPieces, if_pos hc, ih, pathPieces, if_pos hc, List.cons_append]
    · obtain ⟨piece, pieces, hcs, hcons⟩ := pathPieces_cons_of_ne hc cs
      rw [hcs, List.cons_append] at ih
      rw [List.cons_append, pathPieces, if_neg hc, ih, hcons, List.cons_append]

theorem pathPieces_of_notMem {cs : List Char} (h : '/' ∉ cs) : pathPieces cs = [cs] := by
  induction cs with
  | nil => rfl
  | cons c cs ih =>
    rw [List.mem_cons, not_or] at h
    rw [pathPieces, if_neg (Ne.symm h.1), ih h.2]

/-- A piece that a path takes a step along. -/
def isStep (piece : List Char) : Bool := piece != [] && piece != ['.']

theorem leadsNowhere_flatMap {pieces : List (List Char)} (h : ∀ p ∈ pieces, isStep p = false) :
    LeadsNowhere (pieces.flatMap ('/' :: ·)) := by
  induction pieces with
  | nil => exact .nil
  | cons piece pieces ih =>
    obtain ⟨hpiece, hpieces⟩ := List.forall_mem_cons.mp h
    have hcases : piece = [] ∨ piece = ['.'] := by
      by_cases hnil : piece = []
      · exact .inl hnil
      · exact .inr (by simpa [isStep, hnil] using hpiece)
    rw [List.flatMap_cons]
    rcases hcases with rfl | rfl
    · exact .slash (ih hpieces)
    · exact .dot (ih hpieces)

/-- No piece of what leads nowhere is a step. -/
theorem LeadsNowhere.exists_pieces {cs : List Char} (h : LeadsNowhere cs) (name : List Char)
    (hname : '/' ∉ name) : ∃ pieces, pathPieces (name ++ cs) = name :: pieces ∧
      ∀ p ∈ pieces, isStep p = false := by
  -- What stands behind a slash is again a piece without slash and the rest, which leads nowhere.
  induction h generalizing name with
  | nil => exact ⟨[], by rw [List.append_nil, pathPieces_of_notMem hname], by simp⟩
  | slash _ ih =>
    obtain ⟨pieces, hpieces, hsteps⟩ := ih [] (by simp)
    refine ⟨[] :: pieces, ?_, List.forall_mem_cons.mpr ⟨rfl, hsteps⟩⟩
    rw [pathPieces_append, pathPieces_of_notMem hname, ← hpieces]
    rfl
  | dot _ ih =>
    obtain ⟨pieces, hpieces, hsteps⟩ := ih ['.'] (by decide)
    refine ⟨['.'] :: pieces, ?_, List.forall_mem_cons.mpr ⟨rfl, hsteps⟩⟩
    rw [pathPieces_append, pathPieces_of_notMem hname, ← hpieces]
    rfl

theorem getLast?_pathSteps (path : String) : (pathSteps path).getLast? =
    ((pathPieces path.toList).reverse.find? isStep).map String.ofList := by
  have hstep : (fun piece => piece != "" && piece != ".") ∘ String.ofList = isStep := by
    funext piece
    have hempty : String.ofList piece = "" ↔ piece = [] := by
      rw [← String.toList_inj, String.toList_ofList]
      rfl
    have hdot : String.ofList piece = "." ↔ piece = ['.'] := by
      rw [← String.toList_inj, String.toList_ofList]
      rfl
    rw [Bool.eq_iff_iff]
    simp [isStep, hempty, hdot]
  rw [pathSteps, List.filter_map, List.getLast?_map, List.getLast?_filter, hstep]

theorem leadsNowhere_iff (path : List Char) :
    LeadsNowhere ('/' :: path) ↔ (pathPieces path).reverse.find? isStep = none := by
  have hpieces : ∀ p, p ∈ (pathPieces path).reverse ↔ p ∈ pathPieces path := fun p =>
    List.mem_reverse
  simp only [List.find?_eq_none, Bool.not_eq_true, hpieces]
  constructor
  · intro h
    obtain ⟨pieces, hall, hsteps⟩ := h.exists_pieces [] (by simp)
    rw [List.nil_append, pathPieces, if_pos rfl] at hall
    rwa [(List.cons.inj hall).2]
  · intro h
    rw [← flatMap_pathPieces]
    exact leadsNowhere_flatMap h

/-- A path ends in a name if that is the last of its pieces that is a step. -/
theorem endsInName_iff (path name : List Char) :
    EndsInName path name ↔ (pathPieces path).reverse.find? isStep = some name := by
  constructor
  · rintro ⟨noSlash, ne_nil, ne_dot, front, back, hpath, hback⟩
    obtain ⟨pieces, hpieces, hsteps⟩ := hback.exists_pieces name noSlash
    obtain ⟨before, hbefore⟩ : ∃ before, pathPieces path = before ++ name :: pieces := by
      cases front with
      | nil =>
        rw [(List.cons.inj hpath).2]
        exact ⟨[], hpieces⟩
      | cons c front =>
        have hrest : path = front ++ '/' :: (name ++ back) := (List.cons.inj hpath).2
        exact ⟨pathPieces front, by rw [hrest, pathPieces_append, hpieces]⟩
    have hstep : isStep name = true := by simp [isStep, ne_nil, ne_dot]
    rw [hbefore, List.find?_eq_some_iff_append]
    refine ⟨hstep, pieces.reverse, before.reverse, by simp, fun p hp => ?_⟩
    simp [hsteps p (List.mem_reverse.mp hp)]
  · intro h
    obtain ⟨hstep, back, front, hsplit, hback⟩ := List.find?_eq_some_iff_append.mp h
    have hpieces : pathPieces path = front.reverse ++ name :: back.reverse := by
      rw [← List.reverse_inj, hsplit]
      simp
    have hchars := flatMap_pathPieces path
    rw [hpieces, List.flatMap_append, List.flatMap_cons, List.cons_append] at hchars
    have hmem : name ∈ pathPieces path := by simp [hpieces]
    simp only [isStep, Bool.and_eq_true, bne_iff_ne, ne_eq] at hstep
    refine ⟨not_slash_mem_pathPieces path name hmem, hstep.1, hstep.2, _, _, hchars.symm,
      leadsNowhere_flatMap fun p hp => ?_⟩
    simpa using hback p (List.mem_reverse.mp hp)

theorem fileStem_of_nameless {path : String}
    (h : (pathPieces path.toList).reverse.find? isStep = none) : fileStem path = "" := by
  rw [fileStem, getLast?_pathSteps, h]
  rfl

theorem fileStem_of_up {path : String}
    (h : (pathPieces path.toList).reverse.find? isStep = some ['.', '.']) : fileStem path = "" := by
  rw [fileStem, getLast?_pathSteps, h]
  rfl

theorem fileStem_of_name {path : String} {name : List Char}
    (h : (pathPieces path.toList).reverse.find? isStep = some name) (hup : name ≠ ['.', '.']) :
    (fileStem path).toList = dropExtension name := by
  have hne : String.ofList name ≠ ".." := by
    intro h
    rw [← String.toList_inj, String.toList_ofList] at h
    exact hup h
  rw [fileStem, getLast?_pathSteps, h, Option.map_some]
  split
  next h => simp at h
  next h => exact (hne (Option.some.inj h)).elim
  next h =>
    obtain rfl := Option.some.inj h
    rw [String.toList_ofList, String.toList_ofList]

/-- Every path names one module. -/
theorem namesModule_iff (path : String) (stem : List Char) :
    NamesModule path.toList stem ↔ stem = (fileStem path).toList := by
  constructor
  · rintro (⟨ends, ne_up, isStem⟩ | ends | nowhere)
    · rw [fileStem_of_name ((endsInName_iff _ _).mp ends) ne_up]
      exact isStem.unique (isStem_dropExtension _)
    · rw [fileStem_of_up ((endsInName_iff _ _).mp ends)]
      rfl
    · rw [fileStem_of_nameless ((leadsNowhere_iff _).mp nowhere)]
      rfl
  · rintro rfl
    cases hlast : (pathPieces path.toList).reverse.find? isStep with
    | none =>
      rw [fileStem_of_nameless hlast]
      exact .nameless ((leadsNowhere_iff _).mpr hlast)
    | some name =>
      have hends := (endsInName_iff _ _).mpr hlast
      by_cases hup : name = ['.', '.']
      · subst hup
        rw [fileStem_of_up hlast]
        exact .up hends
      · rw [fileStem_of_name hlast hup]
        exact .file hends hup (isStem_dropExtension name)

end SlsLang
