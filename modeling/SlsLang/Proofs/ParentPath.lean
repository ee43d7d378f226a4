import Mathlib.Data.Finset.Card
import Mathlib.Data.Finset.Range
import SlsLang.Attachment

namespace SlsLang.Forest

variable {K P : Type}

/-- The node that so many steps up from parent to parent lead to. -/
def rise (f : Forest K P) : Nat → Handle → Option Handle
  | 0, h => some h
  | steps + 1, h => (f.parent? h).bind (f.rise steps)

/-- From any node a path of parents leads to a node without parent. -/
def Rooted (f : Forest K P) : Prop :=
  ∀ h < f.size, ∃ steps root, f.rise steps h = some root ∧ f.parent? root = none

section Paths

variable {f : Forest K P} {h root : Handle} {steps : Nat}

theorem rise_add (f : Forest K P) (m n : Nat) (h : Handle) :
    f.rise (m + n) h = (f.rise m h).bind (f.rise n) := by
  induction m generalizing h with
  | zero => rw [Nat.zero_add, rise, Option.bind_some]
  | succ m ih =>
    rw [Nat.succ_add, rise, rise]
    cases f.parent? h with
    | none => rfl
    | some p => exact ih p

theorem rise_of_parent?_eq_none (hroot : f.parent? root = none) (hsteps : 0 < steps) :
    f.rise steps root = none := by
  obtain ⟨n, rfl⟩ := Nat.exists_eq_succ_of_ne_zero (Nat.ne_of_gt hsteps)
  rw [rise, hroot, Option.bind_none]

theorem mem_climb {n : Nat} {x : Handle} : x ∈ f.climb n h ↔ ∃ i < n, f.rise i h = some x := by
  induction n generalizing h with
  | zero => simp [climb]
  | succ n ih =>
    have hrest : x ∈ f.climb (n + 1) h ↔ x = h ∨ ∃ p, f.parent? h = some p ∧ x ∈ f.climb n p := by
      cases hp : f.parent? h with
      | none => simp [climb, hp]
      | some p => simp [climb, hp]
    rw [hrest]
    constructor
    · rintro (rfl | ⟨p, hp, hx⟩)
      · exact ⟨0, Nat.succ_pos n, rfl⟩
      · obtain ⟨i, hi, hix⟩ := ih.mp hx
        exact ⟨i + 1, Nat.succ_lt_succ hi, by rw [rise, hp, Option.bind_some, hix]⟩
    · rintro ⟨i, hi, hix⟩
      cases i with
      | zero => exact .inl (Option.some.inj hix).symm
      | succ i =>
        obtain ⟨p, hp, hpx⟩ := Option.bind_eq_some_iff.mp hix
        exact .inr ⟨p, hp, ih.mpr ⟨i, Nat.lt_of_succ_lt_succ hi, hpx⟩⟩

/-- A path that comes to an end visits no node twice: from the second visit on it would go the same
way again. -/
theorem rise_injective (hend : f.rise steps h = some root) (hroot : f.parent? root = none)
    {i j : Nat} (hi : i ≤ steps) (hj : j ≤ steps) (heq : f.rise i h = f.rise j h) : i = j := by
  have hearlier : ∀ {i j : Nat}, i < j → j ≤ steps → f.rise i h ≠ f.rise j h := by
    intro i j hij hj heq
    have hleft : (f.rise j h).bind (f.rise (steps - i)) = some root := by
      rw [← heq, ← rise_add, Nat.add_sub_cancel' (by omega), hend]
    have hright : (f.rise j h).bind (f.rise (steps - j)) = some root := by
      rw [← rise_add, Nat.add_sub_cancel' hj, hend]
    obtain ⟨x, hx, hxroot⟩ := Option.bind_eq_some_iff.mp hright
    have hmore : steps - i = (steps - j) + (j - i) := by omega
    rw [hx, Option.bind_some, hmore, rise_add, hxroot, Option.bind_some,
      rise_of_parent?_eq_none hroot (by omega)] at hleft
    cases hleft
  rcases Nat.lt_trichotomy i j with hlt | rfl | hlt
  · exact (hearlier hlt hj heq).elim
  · rfl
  · exact (hearlier hlt hi heq.symm).elim

/-- No path to a node without parent is as long as the forest is large. -/
theorem steps_lt_size (hh : h < f.size) (hbound : ∀ c p, f.parent? c = some p → p < f.size)
    (hend : f.rise steps h = some root) (hroot : f.parent? root = none) : steps < f.size := by
  have hinside : ∀ i x, f.rise i h = some x → x < f.size := by
    intro i x hx
    cases i with
    | zero => rwa [← Option.some.inj hx]
    | succ i =>
      rw [rise_add] at hx
      obtain ⟨y, _, hy⟩ := Option.bind_eq_some_iff.mp hx
      obtain ⟨p, hp, hpx⟩ := Option.bind_eq_some_iff.mp hy
      rw [← Option.some.inj hpx]
      exact hbound y p hp
  have hsome : ∀ i ≤ steps, ∃ x, f.rise i h = some x := by
    intro i hi
    have hsplit := rise_add f i (steps - i) h
    rw [Nat.add_sub_cancel' hi, hend] at hsplit
    obtain ⟨x, hx, _⟩ := Option.bind_eq_some_iff.mp hsplit.symm
    exact ⟨x, hx⟩
  -- The nodes on the path are all different, and each of them is one of the forest.
  have hcard := Finset.card_le_card_of_injOn (s := Finset.range (steps + 1))
    (t := Finset.range f.size) (fun i => (f.rise i h).getD 0) ?_ ?_
  · rw [Finset.card_range, Finset.card_range] at hcard
    omega
  · intro i hi
    obtain ⟨x, hx⟩ := hsome i (Nat.le_of_lt_succ (Finset.mem_range.mp hi))
    simpa [hx] using hinside i x hx
  · intro i hi j hj heq
    have hi' := Nat.le_of_lt_succ (Finset.mem_range.mp hi)
    have hj' := Nat.le_of_lt_succ (Finset.mem_range.mp hj)
    obtain ⟨x, hx⟩ := hsome i hi'
    obtain ⟨y, hy⟩ := hsome j hj'
    have hxy : x = y := by simpa [hx, hy] using heq
    exact rise_injective hend hroot hi' hj' (by rw [hx, hy, hxy])

end Paths

section Linking

variable {f : Forest K P} {parent child h : Handle}

theorem parent?_create (f : Forest K P) (kind : K) (payload : P) (name : String) (h : Handle) :
    (f.create kind payload name).parent? h = f.parent? h := by
  simp only [parent?, get?_create]
  split
  next heq => rw [heq, get?_size]; rfl
  next => rfl

theorem childrenOf_create (f : Forest K P) (kind : K) (payload : P) (name : String) (h : Handle) :
    (f.create kind payload name).childrenOf h = f.childrenOf h := by
  simp only [childrenOf, get?_create]
  split
  next heq => rw [heq, get?_size]; rfl
  next => rfl

theorem parent?_link (hchild : child < f.size) (parent h : Handle) :
    (f.link parent child).parent? h = if h = child then some parent else f.parent? h := by
  simp only [parent?, get?_link, Option.bind_map]
  by_cases heq : h = child
  · subst heq
    obtain ⟨n, hn⟩ := exists_get? hchild
    simp [hn]
  · simp [heq]

theorem childrenOf_link (hparent : parent < f.size) (child h : Handle) :
    (f.link parent child).childrenOf h =
      if h = parent then f.childrenOf h ++ [child] else f.childrenOf h := by
  simp only [childrenOf, get?_link, Option.map_map]
  by_cases heq : h = parent
  · subst heq
    obtain ⟨n, hn⟩ := exists_get? hparent
    simp [hn]
  · simp [Function.comp_def, heq]

/-- Every step of a path leaves a node that has a parent, so a link changes none of them. -/
theorem rise_link (parent : Handle) (hchild : child < f.size) (hfree : f.parent? child = none)
    {steps : Nat} {x : Handle} (hx : f.rise steps h = some x) :
    (f.link parent child).rise steps h = some x := by
  induction steps generalizing h with
  | zero => exact hx
  | succ steps ih =>
    obtain ⟨p, hp, hpx⟩ := Option.bind_eq_some_iff.mp hx
    have hne : h ≠ child := by
      rintro rfl
      simp [hfree] at hp
    rw [rise, parent?_link hchild, if_neg hne, hp, Option.bind_some]
    exact ih hpx

theorem Rooted.create (hf : f.Rooted) (kind : K) (payload : P) (name : String) :
    (f.create kind payload name).Rooted := by
  have hrise : ∀ steps h, (f.create kind payload name).rise steps h = f.rise steps h := by
    intro steps
    induction steps with
    | zero => exact fun _ => rfl
    | succ steps ih => exact fun h => by rw [rise, rise, parent?_create, funext ih]
  intro h hh
  rw [size_create] at hh
  rcases Nat.lt_succ_iff_lt_or_eq.mp hh with hlt | rfl
  · obtain ⟨steps, root, hend, hroot⟩ := hf h hlt
    exact ⟨steps, root, by rw [hrise, hend], by rw [parent?_create, hroot]⟩
  · have hnew : f.parent? f.size = none := by
      rw [parent?, get?_size, Option.bind_none]
    exact ⟨0, f.size, rfl, by rw [parent?_create, hnew]⟩

/-- A path that ended at the new child goes on from its parent, and that one never comes to the child
again. -/
theorem Rooted.link (hf : f.Rooted) (hbound : ∀ c p, f.parent? c = some p → p < f.size)
    (hparent : parent < f.size) (hchild : child < f.size) (hfree : f.parent? child = none)
    (hbelow : child ∉ f.ancestors parent) : (f.link parent child).Rooted := by
  have hkeep : ∀ root, f.parent? root = none → root ≠ child →
      (f.link parent child).parent? root = none := by
    intro root hroot hne
    rw [parent?_link hchild, if_neg hne, hroot]
  intro h hh
  rw [size_link] at hh
  obtain ⟨steps, root, hend, hroot⟩ := hf h hh
  have hend' := rise_link parent hchild hfree hend
  by_cases hne : root = child
  · subst hne
    obtain ⟨more, top, htop, htopRoot⟩ := hf parent hparent
    have hlt := steps_lt_size hparent hbound htop htopRoot
    have htopNe : top ≠ root := by
      rintro rfl
      exact hbelow (mem_climb.mpr ⟨more, hlt, htop⟩)
    refine ⟨steps + (1 + more), top, ?_, hkeep top htopRoot htopNe⟩
    rw [rise_add, hend', Option.bind_some, rise_add, rise, parent?_link hchild, if_pos rfl]
    exact rise_link parent hchild hfree htop
  · exact ⟨steps, root, hend', hkeep root hroot hne⟩

end Linking

end SlsLang.Forest
