import Mathlib.Data.List.Basic
import Mathlib.Data.List.Forall2

namespace SlsLang

section Stretches

variable {α : Type} {p : α → Bool} {xs rest : List α}

theorem takeWhile_append_of_stop (hxs : ∀ x ∈ xs, p x = true)
    (hrest : ∀ x ∈ rest.head?, p x = false) : (xs ++ rest).takeWhile p = xs := by
  rw [List.takeWhile_append_of_pos hxs]
  cases rest with
  | nil => simp
  | cons x rest => simp [hrest x rfl]

theorem dropWhile_append_of_stop (hxs : ∀ x ∈ xs, p x = true)
    (hrest : ∀ x ∈ rest.head?, p x = false) : (xs ++ rest).dropWhile p = rest := by
  rw [List.dropWhile_append_of_pos hxs]
  cases rest with
  | nil => rfl
  | cons x rest => simp [hrest x rfl]

/-- What follows an element that ends a stretch has no part in it. -/
theorem takeWhile_append_cons (xs rest : List α) {x : α} (hx : p x = false) :
    (xs ++ x :: rest).takeWhile p = xs.takeWhile p := by
  induction xs with
  | nil => simp [hx]
  | cons y ys ih => rw [List.cons_append, List.takeWhile_cons, List.takeWhile_cons, ih]

theorem head?_dropWhile_eq_false : ∀ x ∈ (xs.dropWhile p).head?, p x = false := by
  intro x hx
  have hp := List.head?_dropWhile_not p xs
  rw [Option.mem_def] at hx
  simpa [hx] using hp

end Stretches

section Cuts

variable {α : Type} {a : α} {xs xs' ys ys' : List α}

/-- Rows that are alike are alike in front of the first delimiter and behind it. -/
theorem eq_of_append_cons (hxs : a ∉ xs) (hxs' : a ∉ xs') (h : xs ++ a :: ys = xs' ++ a :: ys') :
    xs = xs' ∧ ys = ys' := by
  induction xs generalizing xs' with
  | nil =>
    cases xs' with
    | nil => exact ⟨rfl, (List.cons.inj h).2⟩
    | cons x' xs' => exact (hxs' ((List.cons.inj h).1 ▸ List.mem_cons_self)).elim
  | cons x xs ih =>
    cases xs' with
    | nil => exact (hxs ((List.cons.inj h).1 ▸ List.mem_cons_self)).elim
    | cons x' xs' =>
      obtain ⟨rfl, hrest⟩ := List.cons.inj h
      obtain ⟨rfl, rfl⟩ := ih (List.not_mem_of_not_mem_cons hxs)
        (List.not_mem_of_not_mem_cons hxs') hrest
      exact ⟨rfl, rfl⟩

/-- They are alike in front of the last delimiter and behind it as well. -/
theorem eq_of_append_cons_last (hys : a ∉ ys) (hys' : a ∉ ys')
    (h : xs ++ a :: ys = xs' ++ a :: ys') : xs = xs' ∧ ys = ys' := by
  have hreverse := congrArg List.reverse h
  simp only [List.reverse_append, List.reverse_cons, List.append_assoc,
    List.singleton_append] at hreverse
  obtain ⟨hbehind, hfront⟩ := eq_of_append_cons (by simpa using hys) (by simpa using hys') hreverse
  exact ⟨List.reverse_inj.mp hfront, List.reverse_inj.mp hbehind⟩

theorem eq_of_replicate_append {m n : Nat} (hxs : xs.head? ≠ some a) (hxs' : xs'.head? ≠ some a)
    (h : List.replicate m a ++ xs = List.replicate n a ++ xs') : m = n ∧ xs = xs' := by
  induction m generalizing n with
  | zero =>
    cases n with
    | zero => exact ⟨rfl, h⟩
    | succ n =>
      rw [List.replicate_zero, List.nil_append] at h
      exact (hxs (h ▸ rfl)).elim
  | succ m ih =>
    cases n with
    | zero =>
      rw [List.replicate_zero, List.nil_append] at h
      exact (hxs' (h ▸ rfl)).elim
    | succ n =>
      rw [List.replicate_succ, List.replicate_succ] at h
      obtain ⟨rfl, rfl⟩ := ih (List.cons.inj h).2
      exact ⟨rfl, rfl⟩

end Cuts

section Parts

variable {α : Type}

theorem length_splitOn [BEq α] [LawfulBEq α] (a : α) (xs : List α) :
    (xs.splitOn a).length = xs.count a + 1 := by
  induction xs with
  | nil => simp
  | cons x xs ih =>
    rw [List.splitOn_cons_eq_if_modifyHead, List.count_cons]
    split <;> simp [ih]

/-- An element that does not separate joins the last part. -/
theorem exists_splitOnP_concat {p : α → Bool} {x : α} (hx : p x = false) (xs : List α) :
    ∃ ended last, xs.splitOnP p = ended ++ [last] ∧
      (xs ++ [x]).splitOnP p = ended ++ [last ++ [x]] := by
  induction xs with
  | nil => exact ⟨[], [], List.splitOnP_nil, List.splitOnP_eq_singleton (by simpa using hx)⟩
  | cons y ys ih =>
    obtain ⟨ended, last, hys, hmore⟩ := ih
    rw [List.cons_append, List.splitOnP_cons_eq_if_modifyHead, List.splitOnP_cons_eq_if_modifyHead,
      hys, hmore]
    cases p y with
    | true => exact ⟨[] :: ended, last, rfl, rfl⟩
    | false =>
      cases ended with
      | nil => exact ⟨[], y :: last, rfl, rfl⟩
      | cons first ended => exact ⟨(y :: first) :: ended, last, rfl, rfl⟩

end Parts

section Members

variable {α : Type}

theorem not_contains_of [BEq α] [LawfulBEq α] {p : α → Bool} {xs : List α} {x : α}
    (h : p x = true) (hxs : xs.any p = false) : xs.contains x = false := by
  rw [Bool.eq_false_iff]
  intro hm
  exact List.any_eq_false.mp hxs x (List.contains_iff_mem.mp hm) h

theorem modify_length_append (f : α → α) (xs ys : List α) (x : α) :
    (xs ++ x :: ys).modify xs.length f = xs ++ f x :: ys :=
  List.modifyTailIdx_add (List.modifyHead f) 0 xs (x :: ys)

end Members

section Pairs

variable {α β : Type} {r s : α → β → Prop} {xs : List α} {ys : List β}

theorem forall₂_congr_of_mem (h : ∀ x ∈ xs, ∀ y ∈ ys, r x y ↔ s x y) :
    List.Forall₂ r xs ys ↔ List.Forall₂ s xs ys := by
  rw [List.forall₂_iff_zip, List.forall₂_iff_zip]
  refine and_congr_right fun _ => ⟨fun hall x y hxy => ?_, fun hall x y hxy => ?_⟩
  · exact (h x (List.of_mem_zip hxy).1 y (List.of_mem_zip hxy).2).mp (hall hxy)
  · exact (h x (List.of_mem_zip hxy).1 y (List.of_mem_zip hxy).2).mpr (hall hxy)

theorem forall₂_map_eq_iff {γ : Type} {f : α → γ} {g : β → γ} :
    List.Forall₂ (fun x y => f x = g y) xs ys ↔ xs.map f = ys.map g := by
  rw [← List.forall₂_eq_eq_eq, List.forall₂_map_left_iff, List.forall₂_map_right_iff]

theorem forall₂_and_iff :
    List.Forall₂ (fun x y => r x y ∧ s x y) xs ys ↔ List.Forall₂ r xs ys ∧ List.Forall₂ s xs ys := by
  constructor
  · exact fun h => ⟨h.imp fun _ _ hxy => hxy.1, h.imp fun _ _ hxy => hxy.2⟩
  · rintro ⟨hr, hs⟩
    induction hr with
    | nil => exact .nil
    | cons hxy _ ih =>
      obtain ⟨hxy', hs⟩ := List.forall₂_cons.mp hs
      exact .cons ⟨hxy, hxy'⟩ (ih hs)

theorem exists_forall₂_iff :
    (∃ ys, List.Forall₂ r xs ys) ↔ ∀ x ∈ xs, ∃ y, r x y := by
  induction xs with
  | nil => simp
  | cons x xs ih =>
    rw [List.forall_mem_cons, ← ih]
    constructor
    · rintro ⟨ys, hys⟩
      cases hys with
      | cons hxy hrest => exact ⟨⟨_, hxy⟩, _, hrest⟩
    · rintro ⟨⟨y, hy⟩, ys, hys⟩
      exact ⟨y :: ys, .cons hy hys⟩

end Pairs

section Traversal

variable {α β ε : Type} {xs : List α} {ys : List β}

theorem mapM_eq_some_iff {f : α → Option β} :
    xs.mapM f = some ys ↔ List.Forall₂ (fun x y => f x = some y) xs ys := by
  induction xs generalizing ys with
  | nil => cases ys <;> simp
  | cons x xs ih =>
    rw [List.mapM_cons]
    cases hx : f x with
    | none => cases ys <;> simp [hx]
    | some y => cases hxs : xs.mapM f <;> cases ys <;> simp [hx, ← ih, hxs]

theorem mapM_eq_ok_iff {f : α → Except ε β} :
    xs.mapM f = .ok ys ↔ List.Forall₂ (fun x y => f x = .ok y) xs ys := by
  induction xs generalizing ys with
  | nil => cases ys <;> simp [pure, Except.pure]
  | cons x xs ih =>
    rw [List.mapM_cons]
    cases hx : f x with
    | error e => cases ys <;> simp [bind, Except.bind, hx]
    | ok y =>
      cases hxs : xs.mapM f <;> cases ys <;>
        simp [bind, Except.bind, pure, Except.pure, hx, ← ih, hxs]

/-- What a row of steps fails with is the fault of the first that fails. -/
theorem mapM_eq_error_iff {f : α → Except ε β} {e : ε} :
    xs.mapM f = .error e ↔ ∃ before x after, xs = before ++ x :: after ∧
      (∀ b ∈ before, ∃ y, f b = .ok y) ∧ f x = .error e := by
  induction xs with
  | nil => simp [pure, Except.pure]
  | cons x xs ih =>
    rw [List.mapM_cons]
    cases hx : f x with
    | error e' =>
      constructor
      · intro h
        cases h
        exact ⟨[], x, xs, rfl, by simp, hx⟩
      · rintro ⟨before, x', after, hsplit, hbefore, hfault⟩
        cases before with
        | nil =>
          cases hsplit
          rw [hx] at hfault
          cases hfault
          rfl
        | cons b before =>
          cases hsplit
          obtain ⟨y, hy⟩ := hbefore x List.mem_cons_self
          rw [hx] at hy
          cases hy
    | ok y =>
      have hrest : (do
          let y ← Except.ok y
          let rest ← xs.mapM f
          pure (y :: rest)) = .error e ↔ xs.mapM f = .error e := by
        cases xs.mapM f <;> simp [bind, Except.bind, pure, Except.pure]
      rw [hrest, ih]
      constructor
      · rintro ⟨before, x', after, rfl, hbefore, hfault⟩
        exact ⟨x :: before, x', after, rfl, List.forall_mem_cons.mpr ⟨⟨y, hx⟩, hbefore⟩, hfault⟩
      · rintro ⟨before, x', after, hsplit, hbefore, hfault⟩
        cases before with
        | nil =>
          cases hsplit
          rw [hx] at hfault
          cases hfault
        | cons b before =>
          cases hsplit
          exact ⟨before, x', after, rfl, (List.forall_mem_cons.mp hbefore).2, hfault⟩

end Traversal

end SlsLang
