import SlsLang.Descendants
import SlsLang.Proofs.ForestGrowth

namespace SlsLang

namespace Outline

variable {K P : Type}

def kind : Outline K P → K
  | node kind _ _ _ => kind

def payload : Outline K P → P
  | node _ payload _ _ => payload

def children : Outline K P → List (Outline K P)
  | node _ _ _ below => below

mutual

/-- An outline and all outlines within it, in the order of their nodes. -/
def parts : Outline K P → List (Outline K P)
  | node kind payload name below => node kind payload name below :: partsAll below

def partsAll : List (Outline K P) → List (Outline K P)
  | [] => []
  | o :: os => o.parts ++ partsAll os

end

mutual

/-- The handles of an outline with their depths, where its first node has the handle `h`. -/
def visits (h depth : Nat) : Outline K P → List (Handle × Nat)
  | node _ _ _ below => (h, depth) :: visitsAll (h + 1) (depth + 1) below

def visitsAll (h depth : Nat) : List (Outline K P) → List (Handle × Nat)
  | [] => []
  | o :: os => o.visits h depth ++ visitsAll (h + o.size) depth os

end

theorem partsAll_eq_flatMap (os : List (Outline K P)) : partsAll os = os.flatMap parts := by
  induction os with
  | nil => rfl
  | cons o os ih => rw [partsAll, ih, List.flatMap_cons]

/-- All parts of an outline are as they should be if its first node is and all parts below are. -/
theorem forall_parts {p : Outline K P → Prop} {kind : K} {payload : P} {name : String}
    {below : List (Outline K P)} (hnode : p (node kind payload name below))
    (hbelow : ∀ o ∈ below, ∀ part ∈ o.parts, p part) :
    ∀ part ∈ (node kind payload name below).parts, p part := by
  intro part hpart
  rw [parts, partsAll_eq_flatMap] at hpart
  rcases List.mem_cons.mp hpart with rfl | hpart
  · exact hnode
  · obtain ⟨o, ho, hpart⟩ := List.mem_flatMap.mp hpart
    exact hbelow o ho part hpart

mutual

theorem eq_or_mem_parts {part o : Outline K P} (h : part ∈ o.parts) :
    part = o ∨ ∃ whole ∈ o.parts, part ∈ whole.children := by
  cases o with
  | node kind payload name below =>
    rw [parts] at h ⊢
    rcases List.mem_cons.mp h with rfl | h
    · exact .inl rfl
    · rcases mem_or_mem_partsAll h with h | ⟨whole, hwhole, hpart⟩
      · exact .inr ⟨_, List.mem_cons_self, h⟩
      · exact .inr ⟨whole, List.mem_cons_of_mem _ hwhole, hpart⟩

theorem mem_or_mem_partsAll {part : Outline K P} {os : List (Outline K P)}
    (h : part ∈ partsAll os) : part ∈ os ∨ ∃ whole ∈ partsAll os, part ∈ whole.children := by
  cases os with
  | nil => simp [partsAll] at h
  | cons o os =>
    rw [partsAll] at h ⊢
    rcases List.mem_append.mp h with h | h
    · rcases eq_or_mem_parts h with rfl | ⟨whole, hwhole, hpart⟩
      · exact .inl List.mem_cons_self
      · exact .inr ⟨whole, List.mem_append_left _ hwhole, hpart⟩
    · rcases mem_or_mem_partsAll h with h | ⟨whole, hwhole, hpart⟩
      · exact .inl (List.mem_cons_of_mem o h)
      · exact .inr ⟨whole, List.mem_append_right _ hwhole, hpart⟩

end

/-- Every part below the first node stands right below some part. -/
theorem exists_whole {part o : Outline K P} (h : part ∈ partsAll o.children) :
    ∃ whole ∈ o.parts, part ∈ whole.children := by
  cases o with
  | node kind payload name below =>
    rw [parts]
    rcases mem_or_mem_partsAll h with h | ⟨whole, hwhole, hpart⟩
    · exact ⟨_, List.mem_cons_self, h⟩
    · exact ⟨whole, List.mem_cons_of_mem _ hwhole, hpart⟩

mutual

theorem map_fst_visits (h depth : Nat) (o : Outline K P) :
    (o.visits h depth).map Prod.fst = List.range' h o.size := by
  cases o with
  | node kind payload name below =>
    rw [visits, List.map_cons, map_fst_visitsAll, size, List.range'_succ]

theorem map_fst_visitsAll (h depth : Nat) (os : List (Outline K P)) :
    (visitsAll h depth os).map Prod.fst = List.range' h (sizeAll os) := by
  cases os with
  | nil => rfl
  | cons o os =>
    rw [visitsAll, List.map_append, map_fst_visits, map_fst_visitsAll, sizeAll,
      List.range'_append_1]

end

end Outline

namespace Forest

open Outline

variable {K P : Type}

mutual

/-- The forest has this outline at the handle `h`, with the identifier `id` and under `parent?`. -/
def Shows (f : Forest K P) (parent? : Option Handle) (h id : Nat) : Outline K P → Prop
  | .node kind payload name below =>
    f.get? h = some ⟨id, kind, payload, name, parent?, (handles (h + 1) below).toArray⟩ ∧
      f.ShowsAll h (h + 1) (id + 1) below

def ShowsAll (f : Forest K P) (parent : Handle) (h id : Nat) : List (Outline K P) → Prop
  | [] => True
  | o :: os => f.Shows (some parent) h id o ∧ f.ShowsAll parent (h + o.size) (id + o.size) os

end

mutual

theorem shows_of_nodes {f : Forest K P} {parent? : Option Handle} {h id : Nat}
    {before after : List (Node K P)} (o : Outline K P) (hlen : before.length = h)
    (hf : f.nodes.toList = before ++ (o.nodes parent? h id ++ after)) : f.Shows parent? h id o := by
  cases o with
  | node kind payload name below =>
    rw [Outline.nodes, List.cons_append] at hf
    have hnode : f.get? h = some ⟨id, kind, payload, name, parent?,
        (handles (h + 1) below).toArray⟩ := by
      rw [get?, ← Array.getElem?_toList, hf, ← hlen]
      simp
    rw [List.append_cons] at hf
    exact ⟨hnode, showsAll_of_nodes below (by simp [hlen]) hf⟩

theorem showsAll_of_nodes {f : Forest K P} {parent h id : Nat} {before after : List (Node K P)}
    (os : List (Outline K P)) (hlen : before.length = h)
    (hf : f.nodes.toList = before ++ (nodesAll parent h id os ++ after)) :
    f.ShowsAll parent h id os := by
  cases os with
  | nil => trivial
  | cons o os =>
    rw [nodesAll, List.append_assoc] at hf
    have ho := shows_of_nodes o hlen hf
    rw [← List.append_assoc before] at hf
    exact ⟨ho, showsAll_of_nodes os (by rw [List.length_append, hlen, length_nodes]) hf⟩

end

theorem shows_forest (firstId : Nat) (o : Outline K P) :
    (o.forest firstId).Shows none 0 firstId o := by
  have hf : (o.forest firstId).nodes.toList = [] ++ (o.nodes none 0 firstId ++ []) := by
    simp [Outline.forest]
  exact shows_of_nodes o rfl hf

section Walks

variable {f : Forest K P}

mutual

/-- A walk that comes to an outline goes through the whole of it before it goes on. -/
theorem walk_shows {parent? : Option Handle} {h id : Nat} {o : Outline K P}
    (hf : f.Shows parent? h id o) (depth steps : Nat) (stack : List (Handle × Nat)) :
    f.walk (o.size + steps) ((h, depth) :: stack) = o.visits h depth ++ f.walk steps stack := by
  cases o with
  | node kind payload name below =>
    obtain ⟨hget, hbelow⟩ := hf
    have hchildren : f.childrenOf h = handles (h + 1) below := by simp [childrenOf, hget]
    have hsize : (node kind payload name below).size + steps = sizeAll below + steps + 1 := by
      rw [Outline.size]
      omega
    -- The children go on top of the stack, so all of them are walked through before the rest of it.
    rw [hsize, walk_cons, hchildren, walk_showsAll hbelow, visits, List.cons_append]

theorem walk_showsAll {parent h id : Nat} {os : List (Outline K P)}
    (hf : f.ShowsAll parent h id os) (depth steps : Nat) (stack : List (Handle × Nat)) :
    f.walk (sizeAll os + steps) ((handles h os).map (·, depth) ++ stack) =
      visitsAll h depth os ++ f.walk steps stack := by
  cases os with
  | nil => simp [sizeAll, handles, visitsAll]
  | cons o os =>
    obtain ⟨ho, hos⟩ := hf
    rw [sizeAll, Nat.add_assoc, handles, List.map_cons, List.cons_append, walk_shows ho,
      walk_showsAll hos, visitsAll, List.append_assoc]

end

end Walks

section Parts

variable {f : Forest K P}

mutual

/-- Every handle of an outline is where one of its parts stands. -/
theorem exists_part {parent? : Option Handle} {h id : Nat} {o : Outline K P}
    (hf : f.Shows parent? h id o) {i : Nat} (hi : i < o.size) :
    ∃ parent?' part, part ∈ o.parts ∧ f.Shows parent?' (h + i) (id + i) part := by
  cases o with
  | node kind payload name below =>
    cases i with
    | zero => exact ⟨parent?, _, by simp [parts], hf⟩
    | succ i =>
      obtain ⟨parent?', part, hpart, hshows⟩ := exists_partAll hf.2 (i := i) (by
        rw [Outline.size] at hi
        omega)
      refine ⟨parent?', part, by simp [parts, hpart], ?_⟩
      rwa [Nat.add_assoc, Nat.add_comm 1, Nat.add_assoc, Nat.add_comm 1] at hshows

theorem exists_partAll {parent h id : Nat} {os : List (Outline K P)}
    (hf : f.ShowsAll parent h id os) {i : Nat} (hi : i < sizeAll os) :
    ∃ parent?' part, part ∈ partsAll os ∧ f.Shows parent?' (h + i) (id + i) part := by
  cases os with
  | nil => simp [sizeAll] at hi
  | cons o os =>
    rw [sizeAll] at hi
    by_cases ho : i < o.size
    · obtain ⟨parent?', part, hpart, hshows⟩ := exists_part hf.1 ho
      exact ⟨parent?', part, by simp [partsAll, hpart], hshows⟩
    · obtain ⟨parent?', part, hpart, hshows⟩ := exists_partAll hf.2 (i := i - o.size) (by omega)
      refine ⟨parent?', part, by simp [partsAll, hpart], ?_⟩
      have hh : h + o.size + (i - o.size) = h + i := by omega
      have hid : id + o.size + (i - o.size) = id + i := by omega
      rwa [hh, hid] at hshows

end

section FlatMap

variable {α : Type} {g : Handle → List α} {p : Outline K P → List α}

mutual

/-- What is taken from the nodes of an outline on a walk is what is taken from its parts. -/
theorem flatMap_visits (hg : ∀ {parent? h id part}, f.Shows parent? h id part → g h = p part)
    {parent? : Option Handle} {h id : Nat} {o : Outline K P} (hf : f.Shows parent? h id o)
    (depth : Nat) : (o.visits h depth).flatMap (fun v => g v.1) = o.parts.flatMap p := by
  have hnode := hg hf
  cases o with
  | node kind payload name below =>
    rw [visits, parts, List.flatMap_cons, List.flatMap_cons, hnode, flatMap_visitsAll hg hf.2]

theorem flatMap_visitsAll (hg : ∀ {parent? h id part}, f.Shows parent? h id part → g h = p part)
    {parent h id : Nat} {os : List (Outline K P)} (hf : f.ShowsAll parent h id os) (depth : Nat) :
    (visitsAll h depth os).flatMap (fun v => g v.1) = (partsAll os).flatMap p := by
  cases os with
  | nil => rfl
  | cons o os =>
    rw [visitsAll, partsAll, List.flatMap_append, List.flatMap_append, flatMap_visits hg hf.1,
      flatMap_visitsAll hg hf.2]

end

end FlatMap

/-- The children of a node that shows an outline show the outlines below it. -/
theorem exists_nodes {parent h id : Nat} {os : List (Outline K P)}
    (hf : f.ShowsAll parent h id os) : ∃ ns : List (Node K P),
      (handles h os).map f.get? = ns.map some ∧
      ns.map Node.kind = os.map kind ∧ ns.map Node.payload = os.map payload := by
  induction os generalizing h id with
  | nil => exact ⟨[], rfl, rfl, rfl⟩
  | cons o os ih =>
    obtain ⟨ns, hget, hkind, hpayload⟩ := ih hf.2
    cases o with
    | node k p n below =>
      obtain ⟨⟨hnode, _⟩, _⟩ := hf
      refine ⟨⟨id, k, p, n, some parent, (handles (h + 1) below).toArray⟩ :: ns, ?_, ?_, ?_⟩
      · rw [handles, List.map_cons, hnode, hget, List.map_cons]
      · rw [List.map_cons, List.map_cons, hkind]
        rfl
      · rw [List.map_cons, List.map_cons, hpayload]
        rfl

/-- A node says what the outline says at its first node: its children are the nodes of the outlines
below, and all of them are there. -/
structure Draws (f : Forest K P) (n : Node K P) (o : Outline K P) : Prop where
  kind : n.kind = o.kind
  payload : n.payload = o.payload
  children : ∃ ns : List (Node K P), n.children.toList.map f.get? = ns.map some ∧
    ns.map Node.kind = o.children.map Outline.kind ∧
    ns.map Node.payload = o.children.map Outline.payload

theorem draws_of_shows {parent? : Option Handle} {h id : Nat} {o : Outline K P} {n : Node K P}
    (hf : f.Shows parent? h id o) (hn : f.get? h = some n) : n.id = id ∧ f.Draws n o := by
  cases o with
  | node kind payload name below =>
    obtain ⟨hget, hbelow⟩ := hf
    rw [hget] at hn
    cases hn
    obtain ⟨ns, hns, hkind, hpayload⟩ := exists_nodes hbelow
    exact ⟨rfl, rfl, rfl, ns, hns, hkind, hpayload⟩

end Parts

theorem size_forest (firstId : Nat) (o : Outline K P) : (o.forest firstId).size = o.size := by
  simp [Forest.size, Outline.forest, length_nodes]

/-- A walk from the first node comes through the whole forest, and ends there however many steps it
may go on. -/
theorem walk_forest (firstId more : Nat) (o : Outline K P) :
    (o.forest firstId).walk ((o.forest firstId).size + more) [(0, 0)] = o.visits 0 0 := by
  rw [size_forest, walk_shows (shows_forest firstId o), walk_nil, List.append_nil]

theorem descendants_forest (firstId : Nat) (o : Outline K P) :
    (o.forest firstId).descendants 0 = o.visits 0 0 := walk_forest firstId 0 o

section Nodes

variable {α : Type}

theorem flatMap_nodes (f : Forest K P) (q : Node K P → List α) :
    f.nodes.toList.flatMap q =
      (List.range f.size).flatMap fun h => ((f.get? h).map q).getD [] := by
  have hget : (List.range f.size).map f.get? = f.nodes.toList.map some := by
    refine List.ext_getElem (by simp [Forest.size]) fun h _ _ => ?_
    simp_all [Forest.get?, Forest.size]
  have hsome : f.nodes.toList.flatMap q =
      (f.nodes.toList.map some).flatMap fun n? => (n?.map q).getD [] := by
    rw [List.flatMap_map]
    rfl
  rw [hsome, ← hget, List.flatMap_map]

/-- What is taken from the nodes of a forest is taken from the parts of its outline. -/
theorem flatMap_nodes_forest (firstId : Nat) (o : Outline K P) {q : Node K P → List α}
    {p : Outline K P → List α}
    (h : ∀ {parent? h id part}, (o.forest firstId).Shows parent? h id part →
      (((o.forest firstId).get? h).map q).getD [] = p part) :
    (o.forest firstId).nodes.toList.flatMap q = o.parts.flatMap p := by
  have hvisits := flatMap_visits h (shows_forest firstId o) 0
  rw [← hvisits, flatMap_nodes, size_forest, List.range_eq_range', ← map_fst_visits 0 0 o,
    List.flatMap_map]

end Nodes

/-- A forest of one outline holds one node for each of its parts, and the identifiers count on with
the handles. -/
theorem exists_draws {firstId h : Nat} {o : Outline K P} {n : Node K P}
    (hn : (o.forest firstId).get? h = some n) :
    n.id = firstId + h ∧ ∃ part ∈ o.parts, (o.forest firstId).Draws n part := by
  have hi : h < o.size := size_forest firstId o ▸ lt_size_of_get? hn
  obtain ⟨parent?, part, hpart, hshows⟩ := exists_part (shows_forest firstId o) hi
  rw [Nat.zero_add] at hshows
  obtain ⟨hid, hdraws⟩ := draws_of_shows hshows hn
  exact ⟨hid, part, hpart, hdraws⟩

theorem ids_forest (firstId : Nat) (o : Outline K P) :
    (o.forest firstId).nodes.toList.map Node.id = List.range' firstId o.size := by
  refine List.ext_getElem? fun h => ?_
  have hget : (o.forest firstId).nodes.toList[h]? = (o.forest firstId).get? h :=
    Array.getElem?_toList
  rw [List.getElem?_map, hget]
  cases hnode : (o.forest firstId).get? h with
  | none =>
    have hle := (get?_eq_none_iff _ h).mp hnode
    rw [size_forest] at hle
    simp [hle]
  | some n =>
    have hlt : h < o.size := size_forest firstId o ▸ lt_size_of_get? hnode
    rw [List.getElem?_range' hlt, Option.map_some, (exists_draws hnode).1, Nat.one_mul]

/-- Past the first node there are the nodes of the outlines below it. -/
theorem exists_draws_below {firstId h : Nat} {o : Outline K P} {n : Node K P}
    (hn : (o.forest firstId).get? (h + 1) = some n) :
    ∃ part ∈ partsAll o.children, (o.forest firstId).Draws n part := by
  have hi : h + 1 < o.size := size_forest firstId o ▸ lt_size_of_get? hn
  have hshows := shows_forest firstId o
  cases o with
  | node kind payload name below =>
    rw [Outline.size] at hi
    obtain ⟨parent?, part, hpart, hshows⟩ := exists_partAll hshows.2 (i := h) (by omega)
    rw [Nat.zero_add, Nat.add_comm 1] at hshows
    exact ⟨part, hpart, (draws_of_shows hshows hn).2⟩

end Forest

end SlsLang
