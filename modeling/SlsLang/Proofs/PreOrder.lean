import SlsLang.Descendants
import SlsLang.Proofs.Subtree

namespace SlsLang.Forest

variable {K P : Type}

/-- The walk with a stack and nothing that bounds its steps: it goes on until the stack is empty, and
these are the nodes it takes off. -/
inductive Drains (f : Forest K P) : List (Handle × Nat) → List (Handle × Nat) → Prop
  | empty : Drains f [] []
  | take {h : Handle} {depth : Nat} {stack visits : List (Handle × Nat)}
      (rest : Drains f ((f.childrenOf h).map (·, depth + 1) ++ stack) visits) :
      Drains f ((h, depth) :: stack) ((h, depth) :: visits)

def deeper (visit : Handle × Nat) : Handle × Nat := (visit.1, visit.2 + 1)

/-- A walk by recursion: first the node itself, and then the walk of each child in its turn, all of it
one deeper. -/
def PreOrder (f : Forest K P) (walk : Handle → List (Handle × Nat)) : Prop :=
  ∀ h < f.size, walk h = (h, 0) :: (f.childrenOf h).flatMap fun c => (walk c).map deeper

section Stack

variable {f : Forest K P} {stack more visits visits' : List (Handle × Nat)}

theorem Drains.walk (h : f.Drains stack visits) (steps : Nat) :
    f.walk (visits.length + steps) stack = visits := by
  induction h with
  | empty => exact walk_nil f _
  | take _ ih => rw [List.length_cons, Nat.add_right_comm, walk_cons, ih]

theorem Drains.unique (h : f.Drains stack visits) (h' : f.Drains stack visits') :
    visits = visits' := by
  have hlong := h.walk visits'.length
  have hlong' := h'.walk visits.length
  rw [Nat.add_comm] at hlong'
  rw [← hlong, hlong']

/-- What lies on top of a stack is walked through before what lies below it. -/
theorem Drains.append (h : f.Drains stack visits) (h' : f.Drains more visits') :
    f.Drains (stack ++ more) (visits ++ visits') := by
  induction h with
  | empty => exact h'
  | take _ ih =>
    rw [List.append_assoc] at ih
    exact .take ih

theorem Drains.deeper (h : f.Drains stack visits) :
    f.Drains (stack.map deeper) (visits.map deeper) := by
  induction h with
  | empty => exact .empty
  | take _ ih =>
    rw [List.map_append, List.map_map] at ih
    exact .take ih

theorem drains_children {walk : Handle → List (Handle × Nat)} {cs : List Handle}
    (h : ∀ c ∈ cs, f.Drains [(c, 0)] (walk c)) :
    f.Drains (cs.map (·, 1)) (cs.flatMap fun c => (walk c).map Forest.deeper) := by
  induction cs with
  | nil => exact .empty
  | cons c cs ih =>
    obtain ⟨hc, hcs⟩ := List.forall_mem_cons.mp h
    exact hc.deeper.append (ih hcs)

/-- A node and then all that its children are walked through for. -/
theorem drains_node {walk : Handle → List (Handle × Nat)} {h : Handle}
    (hchildren : ∀ c ∈ f.childrenOf h, f.Drains [(c, 0)] (walk c)) :
    f.Drains [(h, 0)] ((h, 0) :: (f.childrenOf h).flatMap fun c => (walk c).map Forest.deeper) := by
  have hrest := drains_children hchildren
  refine .take ?_
  rwa [List.append_nil]

end Stack

section Visits

variable {f : Forest K P} {firstId : Nat} (hf : f.WellFormed firstId)
include hf

/-- A walk visits what rises to a node of its stack, at the depth of that node and so many steps
below it. -/
theorem WellFormed.mem_visits_iff {stack visits : List (Handle × Nat)} (h : f.Drains stack visits)
    {m : Handle} {d : Nat} : (m, d) ∈ visits ↔
      ∃ top depth steps, (top, depth) ∈ stack ∧ f.rise steps m = some top ∧ d = depth + steps := by
  induction h with
  | empty => simp
  | @take h depth stack visits _ ih =>
    rw [List.mem_cons, ih]
    constructor
    · rintro (heq | ⟨top, depth', steps, hmem, hrise, rfl⟩)
      · obtain ⟨rfl, rfl⟩ := Prod.mk.inj heq
        exact ⟨m, d, 0, List.mem_cons_self, rfl, rfl⟩
      · rcases List.mem_append.mp hmem with hmem | hmem
        · obtain ⟨c, hc, heq⟩ := List.mem_map.mp hmem
          obtain ⟨rfl, rfl⟩ := Prod.mk.inj heq
          have hup := rise_succ_of_parent? hrise ((hf.linked h c).mpr hc)
          exact ⟨h, depth, steps + 1, List.mem_cons_self, hup, by omega⟩
        · exact ⟨top, depth', steps, List.mem_cons_of_mem _ hmem, hrise, rfl⟩
    · rintro ⟨top, depth', steps, hmem, hrise, rfl⟩
      rcases List.mem_cons.mp hmem with heq | hmem
      · obtain ⟨rfl, rfl⟩ := Prod.mk.inj heq
        cases steps with
        | zero => exact .inl (by rw [Option.some.inj hrise, Nat.add_zero])
        | succ steps =>
          -- The last step up goes from a child to the node taken off.
          rw [rise_add] at hrise
          obtain ⟨c, hc, hlast⟩ := Option.bind_eq_some_iff.mp hrise
          obtain ⟨p, hp, hpt⟩ := Option.bind_eq_some_iff.mp hlast
          rw [Option.some.inj hpt] at hp
          refine .inr ⟨c, depth' + 1, steps, List.mem_append_left _ ?_, hc, by omega⟩
          exact List.mem_map_of_mem ((hf.linked top c).mp hp)
      · exact .inr ⟨top, depth', steps, List.mem_append_right _ hmem, hrise, rfl⟩

theorem WellFormed.mem_visits_node_iff {n m : Handle} {d : Nat} {visits : List (Handle × Nat)}
    (h : f.Drains [(n, 0)] visits) : (m, d) ∈ visits ↔ f.rise d m = some n := by
  rw [hf.mem_visits_iff h]
  simp

/-- The walks of two children meet nowhere, and none comes back to the node. -/
theorem WellFormed.nodup_node {walk : Handle → List (Handle × Nat)} {h : Handle}
    (hchildren : ∀ c ∈ f.childrenOf h, f.Drains [(c, 0)] (walk c) ∧ ((walk c).map Prod.fst).Nodup) :
    (((h, 0) :: (f.childrenOf h).flatMap fun c => (walk c).map deeper).map Prod.fst).Nodup := by
  have hrise : ∀ c ∈ f.childrenOf h, ∀ m ∈ (walk c).map Prod.fst,
      ∃ steps, f.rise steps m = some c ∧ f.rise (steps + 1) m = some h := by
    intro c hc m hm
    obtain ⟨⟨m, steps⟩, hmem, rfl⟩ := List.mem_map.mp hm
    have hup := (hf.mem_visits_node_iff (hchildren c hc).1).mp hmem
    exact ⟨steps, hup, rise_succ_of_parent? hup ((hf.linked h c).mpr hc)⟩
  have hfst : ∀ c, ((walk c).map deeper).map Prod.fst = (walk c).map Prod.fst := fun c => by
    rw [List.map_map]
    rfl
  rw [List.map_cons, List.map_flatMap, List.nodup_cons]
  simp only [hfst]
  refine ⟨?_, List.nodup_flatMap.mpr ⟨fun c hc => (hchildren c hc).2, ?_⟩⟩
  · intro hmem
    obtain ⟨c, hc, hm⟩ := List.mem_flatMap.mp hmem
    obtain ⟨steps, -, hround⟩ := hrise c hc h hm
    exact absurd (hf.rise_unique hround rfl) (Nat.succ_ne_zero steps)
  · refine (hf.once h).imp_of_mem fun {c c'} hc hc' hne m hm hm' => hne ?_
    obtain ⟨steps, hup, htop⟩ := hrise c hc m hm
    obtain ⟨steps', hup', htop'⟩ := hrise c' hc' m hm'
    have hsteps := hf.rise_unique htop htop'
    rw [Nat.succ.inj hsteps] at hup
    exact Option.some.inj (hup.symm.trans hup')

/-- Every node is walked through to the end, and nothing below it is met twice. -/
theorem WellFormed.exists_drains :
    ∀ h < f.size, ∃ visits, f.Drains [(h, 0)] visits ∧ (visits.map Prod.fst).Nodup := by
  refine hf.induction_below fun h _ hchildren => ?_
  choose! walk hwalk using hchildren
  exact ⟨_, drains_node fun c hc => (hwalk c hc).1, hf.nodup_node hwalk⟩

/-- A walk that meets no node twice is no longer than the forest is large, so its bound does not cut
it off. -/
theorem WellFormed.drains_descendants {n : Handle} (hn : n < f.size) :
    f.Drains [(n, 0)] (f.descendants n) ∧ ((f.descendants n).map Prod.fst).Nodup := by
  obtain ⟨visits, hdrains, hnodup⟩ := hf.exists_drains n hn
  have hinside : visits.map Prod.fst ⊆ List.range f.size := by
    intro m hm
    obtain ⟨⟨m, d⟩, hmem, rfl⟩ := List.mem_map.mp hm
    exact List.mem_range.mpr (lt_size_of_rise hn ((hf.mem_visits_node_iff hdrains).mp hmem))
  have hlength := (hnodup.subperm hinside).length_le
  rw [List.length_map, List.length_range] at hlength
  have hall := hdrains.walk (f.size - visits.length)
  rw [Nat.add_sub_cancel' hlength] at hall
  rw [descendants, hall]
  exact ⟨hdrains, hnodup⟩

theorem WellFormed.preOrder_descendants : f.PreOrder f.descendants := by
  intro h hh
  have hchildren : ∀ c ∈ f.childrenOf h, f.Drains [(c, 0)] (f.descendants c) := fun c hc =>
    (hf.drains_descendants (lt_size_of_parent? ((hf.linked h c).mpr hc))).1
  exact (hf.drains_descendants hh).1.unique (drains_node hchildren)

/-- There is one walk by recursion only. -/
theorem WellFormed.preOrder_unique {walk : Handle → List (Handle × Nat)} (hwalk : f.PreOrder walk) :
    ∀ h < f.size, walk h = f.descendants h := by
  refine hf.induction_below fun h hh hchildren => ?_
  rw [hwalk h hh, hf.preOrder_descendants h hh]
  congr 1
  exact List.flatMap_congr fun c hc => by rw [hchildren c hc]

end Visits

/-- In every forest that changes of any kind lead to, whatever node is put under whatever other, the
walk with a stack ends and is the walk by recursion. It meets no node twice, and it comes to a node
at a depth exactly where the walk upwards from there comes, after so many steps, to the node it
started from. -/
theorem editAll_descendants (firstId : Nat) (es : List (Edit K P)) :
    let f := (empty firstId).editAll es
    f.PreOrder f.descendants ∧
    (∀ walk, f.PreOrder walk → ∀ n < f.size, walk n = f.descendants n) ∧
    ∀ n < f.size,
      f.Drains [(n, 0)] (f.descendants n) ∧
      f.Climbs n (f.ancestors n) ∧
      ((f.descendants n).map Prod.fst).Nodup ∧
      ∀ m d, (m, d) ∈ f.descendants n ↔ (f.ancestors m)[d]? = some n := by
  intro f
  have hf : f.WellFormed firstId := ((wellFormed_empty firstId).editAll es).1
  refine ⟨hf.preOrder_descendants, fun walk => hf.preOrder_unique, fun n hn => ?_⟩
  have hsize : 0 < f.size := Nat.zero_lt_of_lt hn
  obtain ⟨hdrains, hnodup⟩ := hf.drains_descendants hn
  refine ⟨hdrains, hf.climbs_ancestors hsize n, hnodup, fun m d => ?_⟩
  rw [hf.mem_visits_node_iff hdrains, (hf.climbs_ancestors hsize m).getElem?]

end SlsLang.Forest
