import Mathlib.Data.List.SplitBy
import SlsLang.Proofs.Lists
import SlsLang.Proofs.PreOrder

namespace SlsLang

namespace Forest

variable {K P : Type}

/-- Two nodes have as many children, and those that come in the same place have the same shape. -/
inductive SameShape (f g : Forest K P) : Handle → Handle → Prop
  | node {h k : Handle} (below : List.Forall₂ (SameShape f g) (f.childrenOf h) (g.childrenOf k)) :
    SameShape f g h k

/-- The depths at which a walk meets the nodes of a subtree. -/
def depths (f : Forest K P) (h : Handle) : List Nat := (f.descendants h).map Prod.snd

/-- Depths that start from the top of a subtree, with all that follows deeper. -/
def FromTop (ds : List Nat) : Prop := ∃ below : List Nat, ds = 0 :: below.map (· + 1)

/-- Where subtrees are walked through one after the other, a new one starts at every depth zero, so
the depths tell where each of them ends. -/
theorem eq_of_flatten_eq {xs ys : List (List Nat)} (hxs : ∀ ds ∈ xs, FromTop ds)
    (hys : ∀ ds ∈ ys, FromTop ds) (h : xs.flatten = ys.flatten) : xs = ys := by
  have hcut : ∀ {zs : List (List Nat)}, (∀ ds ∈ zs, FromTop ds) →
      zs.flatten.splitBy (fun _ depth => 0 < depth) = zs := by
    intro zs hzs
    refine List.splitBy_flatten (fun hnil => ?_) (fun ds hds => ?_) (List.Pairwise.isChain ?_)
    · obtain ⟨_, hds⟩ := hzs _ hnil
      cases hds
    · obtain ⟨below, rfl⟩ := hzs ds hds
      refine List.Pairwise.isChain (List.pairwise_cons.mpr ⟨by simp, ?_⟩)
      exact List.pairwise_map.mpr (List.pairwise_of_forall fun _ _ => by simp)
    · refine List.pairwise_of_forall_mem_list fun ds hds es hes => ?_
      obtain ⟨below, rfl⟩ := hzs ds hds
      obtain ⟨below', rfl⟩ := hzs es hes
      exact ⟨by simp, by simp, by simp⟩
  rw [← hcut hxs, h, hcut hys]

section Depths

variable {f g : Forest K P} {firstId firstId' : Nat}

theorem sameShape_iff_forall₂ {h k : Handle} : f.SameShape g h k ↔
    List.Forall₂ (SameShape f g) (f.childrenOf h) (g.childrenOf k) :=
  ⟨fun ⟨below⟩ => below, .node⟩

theorem WellFormed.child_lt_size (hf : f.WellFormed firstId) {h c : Handle}
    (hc : c ∈ f.childrenOf h) : c < f.size :=
  lt_size_of_parent? ((hf.linked h c).mpr hc)

theorem WellFormed.depths_eq (hf : f.WellFormed firstId) {h : Handle} (hh : h < f.size) :
    f.depths h = 0 :: ((f.childrenOf h).map f.depths).flatten.map (· + 1) := by
  have hdeeper : ∀ visits : List (Handle × Nat),
      (visits.map deeper).map Prod.snd = (visits.map Prod.snd).map (· + 1) := fun visits => by
    rw [List.map_map, List.map_map]
    rfl
  rw [depths, hf.preOrder_descendants h hh, List.map_cons, List.map_flatMap, List.map_flatten,
    List.map_map, List.flatMap_def]
  simp only [hdeeper]
  rfl

theorem WellFormed.fromTop_depths (hf : f.WellFormed firstId) {h : Handle} (hh : h < f.size) :
    FromTop (f.depths h) :=
  ⟨_, hf.depths_eq hh⟩

/-- The depths of a subtree tell its shape. -/
theorem WellFormed.sameShape_iff (hf : f.WellFormed firstId) (hg : g.WellFormed firstId') :
    ∀ h < f.size, ∀ k < g.size, f.SameShape g h k ↔ f.depths h = g.depths k := by
  refine hf.induction_below fun h hh ih k hk => ?_
  have hchildren : f.SameShape g h k ↔
      (f.childrenOf h).map f.depths = (g.childrenOf k).map g.depths := by
    rw [sameShape_iff_forall₂, ← forall₂_map_eq_iff]
    exact forall₂_congr_of_mem fun c hc d hd => ih c hc d (hg.child_lt_size hd)
  rw [hchildren, hf.depths_eq hh, hg.depths_eq hk, List.cons_inj_right,
    (List.map_injective_iff.mpr Nat.succ_injective).eq_iff]
  refine ⟨fun heq => by rw [heq], eq_of_flatten_eq ?_ ?_⟩
  · rw [List.forall_mem_map]
    exact fun c hc => hf.fromTop_depths (hf.child_lt_size hc)
  · rw [List.forall_mem_map]
    exact fun c hc => hg.fromTop_depths (hg.child_lt_size hc)

end Depths

end Forest

end SlsLang
