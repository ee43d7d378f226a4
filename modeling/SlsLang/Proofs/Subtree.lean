import SlsLang.Proofs.ForestEdit

namespace SlsLang.Forest

variable {K P : Type}

def HasChild (f : Forest K P) (parent child : Handle) : Prop := child ∈ f.childrenOf parent

/-- `h` is `top` or stands anywhere below it. -/
def InSubtree (f : Forest K P) (top h : Handle) : Prop := Relation.ReflTransGen f.HasChild top h

/-- The walk from parent to parent with nothing that bounds its steps: only a node without parent
ends it. -/
inductive Climbs (f : Forest K P) : Handle → List Handle → Prop
  | root {h : Handle} (top : f.parent? h = none) : Climbs f h [h]
  | up {h p : Handle} {path : List Handle} (parent : f.parent? h = some p)
      (rest : Climbs f p path) : Climbs f h (h :: path)

section Paths

variable {f : Forest K P} {h root x : Handle} {path : List Handle} {firstId steps : Nat}

theorem Climbs.climb (hpath : f.Climbs h path) (more : Nat) :
    f.climb (path.length + more) h = path := by
  induction hpath with
  | root top => simp [Nat.add_comm 1, Forest.climb, top]
  | up parent _ ih => simp only [List.length_cons, Nat.add_right_comm, Forest.climb, parent, ih]

theorem Climbs.getElem? (hpath : f.Climbs h path) (steps : Nat) : path[steps]? = f.rise steps h := by
  induction hpath generalizing steps with
  | root top =>
    cases steps with
    | zero => rfl
    | succ steps => simp [rise, top]
  | up parent _ ih =>
    cases steps with
    | zero => rfl
    | succ steps => rw [List.getElem?_cons_succ, ih, rise, parent, Option.bind_some]

theorem exists_climbs (hend : f.rise steps h = some root) (hroot : f.parent? root = none) :
    ∃ path, f.Climbs h path ∧ path.length = steps + 1 := by
  induction steps generalizing h with
  | zero =>
    obtain rfl := Option.some.inj hend
    exact ⟨[h], .root hroot, rfl⟩
  | succ steps ih =>
    obtain ⟨p, hp, hrest⟩ := Option.bind_eq_some_iff.mp hend
    obtain ⟨path, hpath, hlength⟩ := ih hrest
    exact ⟨h :: path, .up hp hpath, by rw [List.length_cons, hlength]⟩

theorem lt_size_of_parent? {p : Handle} (hp : f.parent? h = some p) : h < f.size := by
  obtain ⟨n, hn, -⟩ := Option.bind_eq_some_iff.mp hp
  exact lt_size_of_get? hn

/-- What rises to a node of the forest is one. -/
theorem lt_size_of_rise (hx : x < f.size) (hrise : f.rise steps h = some x) : h < f.size := by
  cases steps with
  | zero => rwa [Option.some.inj hrise]
  | succ steps =>
    obtain ⟨p, hp, -⟩ := Option.bind_eq_some_iff.mp hrise
    exact lt_size_of_parent? hp

/-- What is no node of the forest has no parent. -/
theorem parent?_of_size_le (hh : f.size ≤ h) : f.parent? h = none := by
  rw [parent?, (f.get?_eq_none_iff h).mpr hh, Option.bind_none]

theorem rise_succ_of_parent? {p : Handle} (hx : f.rise steps h = some x)
    (hp : f.parent? x = some p) : f.rise (steps + 1) h = some p := by
  rw [rise_add, hx, Option.bind_some, rise, hp]
  rfl

variable (hf : f.WellFormed firstId)
include hf

/-- From any handle a path leads to a node without parent, and it is shorter than the forest is large. -/
theorem WellFormed.exists_root (hsize : 0 < f.size) (h : Handle) :
    ∃ steps root, steps < f.size ∧ f.rise steps h = some root ∧ f.parent? root = none := by
  by_cases hh : h < f.size
  · obtain ⟨steps, root, hend, hroot⟩ := hf.rooted h hh
    exact ⟨steps, root, steps_lt_size hh hf.parent_lt_size hend hroot, hend, hroot⟩
  · exact ⟨0, h, hsize, rfl, parent?_of_size_le (Nat.le_of_not_lt hh)⟩

/-- The walk upwards comes to its end before its bound. -/
theorem WellFormed.climbs_ancestors (hsize : 0 < f.size) (h : Handle) :
    f.Climbs h (f.ancestors h) := by
  obtain ⟨steps, root, hlt, hend, hroot⟩ := hf.exists_root hsize h
  obtain ⟨path, hpath, hlength⟩ := exists_climbs hend hroot
  have hall := hpath.climb (f.size - path.length)
  rw [Nat.add_sub_cancel' (by omega)] at hall
  rwa [ancestors, hall]

/-- No path of parents comes to the same node twice. -/
theorem WellFormed.rise_unique {i j : Nat} (hi : f.rise i h = some x) (hj : f.rise j h = some x) :
    i = j := by
  by_cases hh : h < f.size
  · obtain ⟨steps, root, hend, hroot⟩ := hf.rooted h hh
    have hle : ∀ k, f.rise k h = some x → k ≤ steps := by
      intro k hk
      by_contra hlt
      have hmore : k = steps + (k - steps) := by omega
      rw [hmore, rise_add, hend, Option.bind_some,
        rise_of_parent?_eq_none hroot (by omega)] at hk
      cases hk
    exact rise_injective hend hroot (hle i hi) (hle j hj) (hi.trans hj.symm)
  · have hzero : ∀ k, f.rise k h = some x → k = 0 := by
      intro k hk
      by_contra hne
      rw [rise_of_parent?_eq_none (parent?_of_size_le (Nat.le_of_not_lt hh))
        (Nat.pos_of_ne_zero hne)] at hk
      cases hk
    rw [hzero i hi, hzero j hj]

/-- Down from the node, or up to it: both views of a subtree agree. -/
theorem WellFormed.inSubtree_iff {top : Handle} :
    f.InSubtree top h ↔ ∃ steps, f.rise steps h = some top := by
  constructor
  · intro hbelow
    induction hbelow with
    | refl => exact ⟨0, rfl⟩
    | tail _ hchild ih =>
      obtain ⟨steps, hsteps⟩ := ih
      exact ⟨steps + 1, by rw [rise, (hf.linked _ _).mpr hchild, Option.bind_some, hsteps]⟩
  · rintro ⟨steps, hsteps⟩
    induction steps generalizing h with
    | zero =>
      obtain rfl := Option.some.inj hsteps
      exact .refl
    | succ steps ih =>
      obtain ⟨p, hp, hrest⟩ := Option.bind_eq_some_iff.mp hsteps
      exact .tail (ih hrest) ((hf.linked _ _).mp hp)

theorem WellFormed.mem_ancestors_iff (hsize : 0 < f.size) {top : Handle} :
    top ∈ f.ancestors h ↔ f.InSubtree top h := by
  rw [hf.inSubtree_iff, List.mem_iff_getElem?]
  simp only [(hf.climbs_ancestors hsize h).getElem?]

/-- No node stands below itself. -/
theorem WellFormed.acyclic (h : Handle) : ¬ Relation.TransGen f.HasChild h h := by
  intro hcycle
  obtain ⟨x, hchild, hback⟩ := Relation.TransGen.tail'_iff.mp hcycle
  obtain ⟨steps, hsteps⟩ := hf.inSubtree_iff.mp hchild
  have hround : f.rise (steps + 1) h = some h := by
    rw [rise, (hf.linked _ _).mpr hback, Option.bind_some, hsteps]
  exact absurd (hf.rise_unique hround rfl) (Nat.succ_ne_zero steps)

/-- What holds of a node once it holds of its children holds of every node: a child stands further
from its root, and no node stands as far from it as the forest is large. -/
theorem WellFormed.induction_below {motive : Handle → Prop}
    (step : ∀ h < f.size, (∀ c ∈ f.childrenOf h, motive c) → motive h) :
    ∀ h < f.size, motive h := by
  have hdeep : ∀ n h steps root, h < f.size → f.rise steps h = some root →
      f.parent? root = none → f.size ≤ steps + n → motive h := by
    intro n
    induction n with
    | zero =>
      intro h steps root hh hend hroot hle
      have hlt := steps_lt_size hh hf.parent_lt_size hend hroot
      omega
    | succ n ih =>
      intro h steps root hh hend hroot hle
      refine step h hh fun c hc => ?_
      have hp := (hf.linked h c).mpr hc
      refine ih c (steps + 1) root (lt_size_of_parent? hp) ?_ hroot (by omega)
      rw [rise, hp, Option.bind_some, hend]
  intro h hh
  obtain ⟨steps, root, hend, hroot⟩ := hf.rooted h hh
  exact hdeep f.size h steps root hh hend hroot (by omega)

end Paths

end SlsLang.Forest
