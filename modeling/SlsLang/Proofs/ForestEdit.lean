import Mathlib.Logic.Relation
import SlsLang.Proofs.ParentPath

namespace SlsLang

variable {K P : Type}

/-- One change asked of a forest. -/
inductive Edit (K P : Type)
  | create (kind : K) (payload : P) (name : String)
  | append (parent : Handle) (kind : K) (payload : P) (name : String)
  | attach (parent child : Handle)

/-- A node may get a parent once, and further children behind those it has. -/
structure Node.GrowsTo (n m : Node K P) : Prop where
  id : m.id = n.id
  kind : m.kind = n.kind
  payload : m.payload = n.payload
  name : m.name = n.name
  parent : ∀ p, n.parent? = some p → m.parent? = some p
  children : n.children.toList <+: m.children.toList

theorem Node.GrowsTo.refl (n : Node K P) : n.GrowsTo n :=
  ⟨rfl, rfl, rfl, rfl, fun _ hp => hp, List.prefix_rfl⟩

theorem Node.GrowsTo.trans {n m k : Node K P} (hnm : n.GrowsTo m) (hmk : m.GrowsTo k) :
    n.GrowsTo k :=
  ⟨hmk.id.trans hnm.id, hmk.kind.trans hnm.kind, hmk.payload.trans hnm.payload,
    hmk.name.trans hnm.name, fun p hp => hmk.parent p (hnm.parent p hp),
    hnm.children.trans hmk.children⟩

namespace Forest

/-- A change that is refused leaves the forest as it is. -/
def edit (f : Forest K P) : Edit K P → Forest K P
  | .create kind payload name => f.create kind payload name
  | .append parent kind payload name => f.append parent kind payload name
  | .attach parent child =>
    match f.attach parent child with
    | .ok g => g
    | .error _ => f

def editAll (f : Forest K P) (es : List (Edit K P)) : Forest K P := es.foldl edit f

/-- Identifiers count on with the handles, parents and children name each other, and no path of
parents goes on for ever. -/
structure WellFormed (firstId : Nat) (f : Forest K P) : Prop where
  ids : ∀ h n, f.get? h = some n → n.id = firstId + h
  nextId : f.nextId = firstId + f.size
  linked : ∀ p c, f.parent? c = some p ↔ c ∈ f.childrenOf p
  once : ∀ p, (f.childrenOf p).Nodup
  rooted : f.Rooted

def Grows (f g : Forest K P) : Prop :=
  ∀ h n, f.get? h = some n → ∃ m, g.get? h = some m ∧ n.GrowsTo m

/-- All that happens to a forest: a new node, or a link that closes no cycle. -/
inductive Step (f : Forest K P) : Forest K P → Prop
  | create (kind : K) (payload : P) (name : String) : Step f (f.create kind payload name)
  | link {parent child : Handle} (parent_lt : parent < f.size) (child_lt : child < f.size)
      (free : f.parent? child = none) (below : child ∉ f.ancestors parent) :
      Step f (f.link parent child)

section Steps

variable {f g : Forest K P} {firstId : Nat} {parent child : Handle}

theorem lt_size_of_mem_childrenOf (h : child ∈ f.childrenOf parent) : parent < f.size := by
  by_contra hle
  have hnone := (f.get?_eq_none_iff parent).mpr (Nat.le_of_not_lt hle)
  simp [childrenOf, hnone] at h

theorem WellFormed.parent_lt_size (hf : f.WellFormed firstId) (c p : Handle)
    (hp : f.parent? c = some p) : p < f.size :=
  lt_size_of_mem_childrenOf ((hf.linked p c).mp hp)

theorem wellFormed_empty (firstId : Nat) : (empty firstId : Forest K P).WellFormed firstId := by
  refine ⟨?_, rfl, ?_, ?_, fun h hh => ?_⟩
  · simp [get?, empty]
  · simp [parent?, childrenOf, get?, empty]
  · simp [childrenOf, get?, empty]
  · simp [size, empty] at hh

theorem WellFormed.create (hf : f.WellFormed firstId) (kind : K) (payload : P) (name : String) :
    (f.create kind payload name).WellFormed firstId := by
  refine ⟨fun h n hn => ?_, ?_, fun p c => ?_, fun p => ?_, hf.rooted.create kind payload name⟩
  · rw [get?_create] at hn
    split at hn
    next heq =>
      cases hn
      rw [heq]
      exact hf.nextId
    next => exact hf.ids h n hn
  · rw [size_create, ← Nat.add_assoc, ← hf.nextId]
    rfl
  · rw [parent?_create, childrenOf_create]
    exact hf.linked p c
  · rw [childrenOf_create]
    exact hf.once p

theorem WellFormed.link (hf : f.WellFormed firstId) (hparent : parent < f.size)
    (hchild : child < f.size) (hfree : f.parent? child = none)
    (hbelow : child ∉ f.ancestors parent) : (f.link parent child).WellFormed firstId := by
  have hnew : ∀ p, child ∉ f.childrenOf p := by
    intro p hp
    rw [← hf.linked, hfree] at hp
    cases hp
  refine ⟨fun h n hn => ?_, ?_, fun p c => ?_, fun p => ?_,
    hf.rooted.link hf.parent_lt_size hparent hchild hfree hbelow⟩
  · rw [get?_link] at hn
    obtain ⟨m, hm, rfl⟩ := Option.map_eq_some_iff.mp hn
    exact hf.ids h m hm
  · rw [size_link]
    exact hf.nextId
  · rw [parent?_link hchild, childrenOf_link hparent]
    by_cases hc : c = child
    · subst hc
      by_cases hp : p = parent
      · simp [hp]
      · simp [hp, hnew p, Ne.symm hp]
    · by_cases hp : p = parent
      · simp [hc, hp, hf.linked]
      · simp [hc, hp, hf.linked]
  · rw [childrenOf_link hparent]
    split
    next =>
      rw [List.nodup_append]
      refine ⟨hf.once p, List.nodup_singleton child, ?_⟩
      rintro c hc d hd rfl
      rw [List.mem_singleton.mp hd] at hc
      exact hnew p hc
    next => exact hf.once p

theorem WellFormed.step (hf : f.WellFormed firstId) (h : f.Step g) : g.WellFormed firstId := by
  cases h with
  | create kind payload name => exact hf.create kind payload name
  | link hparent hchild hfree hbelow => exact hf.link hparent hchild hfree hbelow

theorem grows_step (h : f.Step g) : f.Grows g := by
  intro h' n hn
  cases h with
  | create kind payload name =>
    have hne : h' ≠ f.size := by
      rintro rfl
      rw [get?_size] at hn
      cases hn
    exact ⟨n, by rw [get?_create, if_neg hne, hn], .refl n⟩
  | @link parent child _ _ hfree _ =>
    have hget := f.get?_link parent child h'
    rw [hn, Option.map_some] at hget
    refine ⟨_, hget, rfl, rfl, rfl, rfl, fun p hp => ?_, ?_⟩
    · have hne : h' ≠ child := by
        rintro rfl
        rw [parent?, hn, Option.bind_some, hp] at hfree
        cases hfree
      simpa [hne] using hp
    · dsimp only
      split
      · rw [Array.toList_push]
        exact List.prefix_append _ _
      · exact List.prefix_rfl

theorem Grows.trans {k : Forest K P} (hfg : f.Grows g) (hgk : g.Grows k) : f.Grows k := by
  intro h n hn
  obtain ⟨m, hm, hnm⟩ := hfg h n hn
  obtain ⟨l, hl, hml⟩ := hgk h m hm
  exact ⟨l, hl, hnm.trans hml⟩

theorem attach_eq_ok (h : f.attach parent child = .ok g) : parent < f.size ∧ child < f.size ∧
    f.parent? child = none ∧ child ∉ f.ancestors parent ∧ g = f.link parent child := by
  unfold attach at h
  split at h
  next p c hp hc =>
    split at h
    · cases h
    next hfree =>
      split at h
      · cases h
      next hbelow =>
        cases h
        refine ⟨lt_size_of_get? hp, lt_size_of_get? hc, ?_, hbelow, rfl⟩
        rw [parent?, hc, Option.bind_some]
        simpa using hfree
  next => cases h

/-- A node that is just made has no children, so no path of parents comes to it. -/
theorem WellFormed.size_notMem_ancestors (hf : f.WellFormed firstId) (hparent : parent < f.size)
    (kind : K) (payload : P) (name : String) :
    f.size ∉ (f.create kind payload name).ancestors parent := by
  intro hm
  obtain ⟨i, _, hi⟩ := mem_climb.mp hm
  cases i with
  | zero => exact absurd (Option.some.inj hi) (Nat.ne_of_lt hparent)
  | succ i =>
    rw [rise_add] at hi
    obtain ⟨y, _, hy⟩ := Option.bind_eq_some_iff.mp hi
    obtain ⟨p, hp, hpx⟩ := Option.bind_eq_some_iff.mp hy
    rw [parent?_create] at hp
    have hlt := hf.parent_lt_size y p hp
    rw [Option.some.inj hpx] at hlt
    exact Nat.lt_irrefl _ hlt

theorem WellFormed.steps_edit (hf : f.WellFormed firstId) (e : Edit K P) :
    Relation.ReflTransGen Step f (f.edit e) := by
  cases e with
  | create kind payload name => exact .single (.create kind payload name)
  | append parent kind payload name =>
    simp only [edit, append]
    split
    next hparent =>
      have hlink : Step (f.create kind payload name)
          ((f.create kind payload name).link parent f.size) := by
        refine .link ?_ ?_ ?_ (hf.size_notMem_ancestors hparent kind payload name)
        · rw [size_create]
          exact Nat.lt_succ_of_lt hparent
        · rw [size_create]
          exact Nat.lt_succ_self f.size
        · rw [parent?_create, parent?, get?_size]
          rfl
      exact .tail (.single (.create kind payload name)) hlink
    next => exact .single (.create kind payload name)
  | attach parent child =>
    simp only [edit]
    split
    next g hg =>
      obtain ⟨hparent, hchild, hfree, hbelow, rfl⟩ := attach_eq_ok hg
      exact .single (.link hparent hchild hfree hbelow)
    next => exact .refl

theorem WellFormed.steps (hf : f.WellFormed firstId) (h : Relation.ReflTransGen Step f g) :
    g.WellFormed firstId ∧ f.Grows g := by
  induction h with
  | refl => exact ⟨hf, fun _ n hn => ⟨n, hn, .refl n⟩⟩
  | tail _ hstep ih => exact ⟨ih.1.step hstep, ih.2.trans (grows_step hstep)⟩

theorem WellFormed.editAll (hf : f.WellFormed firstId) (es : List (Edit K P)) :
    (f.editAll es).WellFormed firstId ∧ f.Grows (f.editAll es) := by
  induction es generalizing f with
  | nil => exact hf.steps .refl
  | cons e es ih =>
    obtain ⟨hedit, hgrows⟩ := hf.steps (hf.steps_edit e)
    obtain ⟨hrest, hgrows'⟩ := ih hedit
    exact ⟨hrest, hgrows.trans hgrows'⟩

end Steps

/-- However nodes are made, appended and put under one another, with attempts that are refused among
the changes, they are a forest at any time, and what is once said of a node stays. -/
theorem editAll_forest (firstId : Nat) (es : List (Edit K P)) :
    let f := (empty firstId).editAll es
    (∀ h n, f.get? h = some n → n.id = firstId + h) ∧ f.nextId = firstId + f.size ∧
    (∀ p c, f.parent? c = some p ↔ c ∈ f.childrenOf p) ∧
    (∀ p c, f.parent? c = some p →
      (f.childrenOf p).count c = 1 ∧ ∀ q, c ∈ f.childrenOf q → q = p) ∧
    (∀ h < f.size, ∃ steps root, steps < f.size ∧ f.rise steps h = some root ∧
      f.parent? root = none) ∧
    ∀ before after, es = before ++ after → ((empty firstId).editAll before).Grows f := by
  intro f
  have hf : f.WellFormed firstId := ((wellFormed_empty firstId).editAll es).1
  refine ⟨hf.ids, hf.nextId, hf.linked, fun p c hp => ⟨?_, fun q hq => ?_⟩, fun h hh => ?_, ?_⟩
  · exact List.count_eq_one_of_mem (hf.once p) ((hf.linked p c).mp hp)
  · rw [← hf.linked, hp] at hq
    exact (Option.some.inj hq).symm
  · obtain ⟨steps, root, hend, hroot⟩ := hf.rooted h hh
    exact ⟨steps, root, steps_lt_size hh hf.parent_lt_size hend hroot, hend, hroot⟩
  · rintro before after rfl
    have hbefore := ((wellFormed_empty (K := K) (P := P) firstId).editAll before).1
    have happend : f = ((empty firstId).editAll before).editAll after := List.foldl_append
    rw [happend]
    exact (hbefore.editAll after).2

end Forest

end SlsLang
