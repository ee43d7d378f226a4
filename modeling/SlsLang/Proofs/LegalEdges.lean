import SlsLang.Proofs.Subtree

namespace SlsLang.Forest

variable {K P : Type}

/-- As the children have it: no node stands twice among all of them, and none below itself. -/
structure IsForest (f : Forest K P) : Prop where
  single : ∀ p q c, f.HasChild p c → f.HasChild q c → p = q
  once : ∀ p, (f.childrenOf p).Nodup
  acyclic : ∀ h, ¬ Relation.TransGen f.HasChild h h

section Edges

variable {f : Forest K P} {firstId : Nat} {parent child : Handle}

theorem WellFormed.isForest (hf : f.WellFormed firstId) : f.IsForest := by
  refine ⟨fun p q c hp hq => ?_, hf.once, hf.acyclic⟩
  have hp' := (hf.linked p c).mpr hp
  have hq' := (hf.linked q c).mpr hq
  exact Option.some.inj (hp'.symm.trans hq')

theorem hasChild_link (hparent : parent < f.size) (child : Handle) :
    (f.link parent child).HasChild parent child := by
  rw [HasChild, childrenOf_link hparent, if_pos rfl]
  exact List.mem_append_right _ (List.mem_singleton_self child)

/-- A link takes no child away. -/
theorem HasChild.link (hparent : parent < f.size) {p c : Handle} (h : f.HasChild p c) :
    (f.link parent child).HasChild p c := by
  rw [HasChild, childrenOf_link hparent]
  split
  · exact List.mem_append_left _ h
  · exact h

theorem WellFormed.link_isForest_iff (hf : f.WellFormed firstId) (hparent : parent < f.size)
    (hchild : child < f.size) : (f.link parent child).IsForest ↔
      f.parent? child = none ∧ ¬ f.InSubtree child parent := by
  have hsize : 0 < f.size := Nat.zero_lt_of_lt hparent
  constructor
  · intro hforest
    refine ⟨?_, fun hbelow => ?_⟩
    · by_contra hne
      obtain ⟨q, hq⟩ := Option.ne_none_iff_exists'.mp hne
      have hold : f.HasChild q child := (hf.linked q child).mp hq
      obtain rfl := hforest.single q parent child (hold.link hparent) (hasChild_link hparent child)
      -- Under the parent it has already the child would come to stand twice.
      have hnodup := hforest.once q
      rw [childrenOf_link hparent, if_pos rfl] at hnodup
      exact (List.nodup_append.mp hnodup).2.2 child hold child (List.mem_singleton_self child) rfl
    · have hdown : Relation.ReflTransGen (f.link parent child).HasChild child parent :=
        Relation.ReflTransGen.mono (fun _ _ h => HasChild.link hparent h) _ _ hbelow
      exact hforest.acyclic child (.tail' hdown (hasChild_link hparent child))
  · rintro ⟨hfree, hbelow⟩
    rw [← hf.mem_ancestors_iff hsize] at hbelow
    exact (hf.link hparent hchild hfree hbelow).isForest

theorem attach_of_get? {p c : Node K P} (hp : f.get? parent = some p) (hc : f.get? child = some c) :
    f.attach parent child =
      if c.parent?.isSome then .error (.alreadyAttached c.id)
      else if child ∈ f.ancestors parent then .error (.cycle p.id c.id)
      else .ok (f.link parent child) := by
  rw [attach, hp, hc]

theorem edit_of_refused {fault : AttachFault} (h : f.attach parent child = .error fault) :
    f.edit (.attach parent child) = f := by
  rw [edit, h]

/-- What a link leaves of every node. -/
theorem link_changes (f : Forest K P) (parent child : Handle) :
    (f.link parent child).nextId = f.nextId ∧ (f.link parent child).size = f.size ∧
      ∀ h, (f.link parent child).get? h = (f.get? h).map fun n =>
        { n with
          parent? := if h = child then some parent else n.parent?
          children := if h = parent then n.children.push child else n.children } :=
  ⟨rfl, f.size_link parent child, f.get?_link parent child⟩

end Edges

/-- In every forest that changes of any kind lead to, a node is put under another exactly where that
leaves a forest: it must have no parent, and the other must not stand in its subtree. A parent is
looked for first, and then the subtree by a walk upwards that comes to its end; a refusal names the
nodes and leaves all as it is. What is done otherwise is to name the parent at the child, and the
child behind the children of the parent. -/
theorem editAll_attach (firstId : Nat) (es : List (Edit K P)) :
    let f := (empty firstId).editAll es
    f.IsForest ∧
    ∀ parent child p c, f.get? parent = some p → f.get? child = some c →
      f.Climbs parent (f.ancestors parent) ∧
      ((∃ g, f.attach parent child = .ok g) ↔ c.parent? = none ∧ ¬ f.InSubtree child parent) ∧
      ((∃ g, f.attach parent child = .ok g) ↔ (f.link parent child).IsForest) ∧
      (c.parent? ≠ none → f.attach parent child = .error (.alreadyAttached c.id)) ∧
      (c.parent? = none → f.InSubtree child parent →
        f.attach parent child = .error (.cycle p.id c.id)) ∧
      (∀ fault, f.attach parent child = .error fault → f.edit (.attach parent child) = f) ∧
      ∀ g, f.attach parent child = .ok g → f.edit (.attach parent child) = g ∧
        g.nextId = f.nextId ∧ g.size = f.size ∧ ∀ h, g.get? h = (f.get? h).map fun n =>
          { n with
            parent? := if h = child then some parent else n.parent?
            children := if h = parent then n.children.push child else n.children } := by
  intro f
  have hf : f.WellFormed firstId := ((wellFormed_empty firstId).editAll es).1
  refine ⟨hf.isForest, fun parent child p c hp hc => ?_⟩
  have hparent := lt_size_of_get? hp
  have hsize : 0 < f.size := Nat.zero_lt_of_lt hparent
  have hfree : f.parent? child = c.parent? := by rw [parent?, hc, Option.bind_some]
  have hbelow : child ∈ f.ancestors parent ↔ f.InSubtree child parent := hf.mem_ancestors_iff hsize
  have hanswer := attach_of_get? hp hc
  have hok : (∃ g, f.attach parent child = .ok g) ↔
      c.parent? = none ∧ ¬ f.InSubtree child parent := by
    rw [hanswer, ← hbelow]
    cases c.parent? <;> by_cases hm : child ∈ f.ancestors parent <;> simp [hm]
  refine ⟨hf.climbs_ancestors hsize parent, hok, ?_, fun hattached => ?_, fun hnone hin => ?_,
    fun fault => edit_of_refused, fun g hg => ?_⟩
  · rw [hok, hf.link_isForest_iff hparent (lt_size_of_get? hc), hfree]
  · rw [hanswer, if_pos (Option.isSome_iff_ne_none.mpr hattached)]
  · rw [hanswer, hnone, if_neg (by simp), if_pos (hbelow.mpr hin)]
  · obtain ⟨-, -, -, -, hlink⟩ := attach_eq_ok hg
    refine ⟨by rw [edit, hg], ?_⟩
    rw [hlink]
    exact f.link_changes parent child

/-- The newer node stands over the older one: it cannot go below it, and the older has its parent. -/
example :
    let es : List (Edit Unit Unit) := [.create () () "a", .create () () "b", .attach 1 0]
    let f := (empty 7).editAll es
    f.attach 0 1 = .error (.cycle 7 8) ∧ f.attach 0 0 = .error (.alreadyAttached 7) := by
  decide

end SlsLang.Forest
