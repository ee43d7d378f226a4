import SlsLang.Proofs.Lists
import SlsLang.Proofs.Outline

namespace SlsLang

open Outline

variable {K P : Type}

namespace Forest

theorem toList_nodes_append {t : Forest K P} {before after : List (Node K P)} {n : Node K P}
    (h : t.nodes.toList = before ++ n :: after) (kind : K) (payload : P) (name : String) :
    (t.append before.length kind payload name).nodes.toList =
      before ++ { n with children := n.children.push t.size } ::
        (after ++ [⟨t.nextId, kind, payload, name, some before.length, #[]⟩]) := by
  have hsize : t.size = (before ++ n :: after).length := by
    rw [← h]
    rfl
  have hlt : before.length < t.size := by
    rw [hsize, List.length_append, List.length_cons]
    omega
  have hlast := modify_length_append (fun m => { m with parent? := some before.length })
    (before ++ n :: after) [] (⟨t.nextId, kind, payload, name, none, #[]⟩ : Node K P)
  have hparent := modify_length_append (fun m => { m with children := m.children.push t.size })
    before (after ++ [(⟨t.nextId, kind, payload, name, some before.length, #[]⟩ : Node K P)]) n
  simp only [append, if_pos hlt, link, create, Array.toList_modify, Array.toList_push, h]
  rw [← hsize] at hlast
  rw [hlast]
  simpa using hparent

/-- After the nodes `old` the forest holds this outline and nothing more. -/
structure Holds (t : Forest K P) (old : List (Node K P)) (id : Nat) (o : Outline K P) : Prop where
  nodes : t.nodes.toList = old ++ o.nodes none old.length id
  nextId : t.nextId = id + o.size

theorem Holds.size {t : Forest K P} {old : List (Node K P)} {id : Nat} {o : Outline K P}
    (h : t.Holds old id o) : t.size = old.length + o.size := by
  have hlength := congrArg List.length h.nodes
  rwa [List.length_append, length_nodes] at hlength

/-- A node put under the end of the way comes last in the forest, where its outline is laid out. -/
theorem Holds.append {t : Forest K P} {old : List (Node K P)} {id : Nat} {way : List (Frame K P)}
    {k : K} {p : P} {n : String} {below : List (Outline K P)}
    (h : t.Holds old id (fill way (node k p n below))) (kind : K) (payload : P) (name : String) :
    (t.append (old.length + passed way) kind payload name).Holds old id
      (fill way (node k p n (below ++ [node kind payload name []]))) := by
  have hsize := h.size
  have hnext := h.nextId
  rw [size_fill, Outline.size] at hsize hnext
  refine ⟨?_, ?_⟩
  -- What is laid out before the end of the way does not change, and its length is the handle there.
  · have hbefore : (old ++ laid none old.length id way).length = old.length + passed way := by
      rw [List.length_append, length_laid]
    have hnodes := h.nodes
    rw [nodes_fill, Outline.nodes, ← List.append_assoc] at hnodes
    have hgrown := toList_nodes_append hnodes kind payload name
    rw [hbefore] at hgrown
    rw [hgrown, nodes_fill, Outline.nodes, nodesAll_concat, handles_concat, hsize, hnext]
    simp [Outline.nodes, nodesAll, handles, Nat.add_assoc, Nat.add_comm (sizeAll below) 1]
  · rw [nextId_append, hnext, size_fill, Outline.size, sizeAll_concat, Outline.size, sizeAll]
    omega

theorem holds_forest {t : Forest K P} {id : Nat} {o : Outline K P} (h : t.Holds [] id o) :
    t = o.forest id := by
  cases t with
  | mk nodes nextId =>
    have hnodes : nodes = (o.nodes none 0 id).toArray := by
      apply Array.toList_inj.mp
      simpa using h.nodes
    have hnext : nextId = id + o.size := h.nextId
    rw [hnodes, hnext, Outline.forest]

end Forest

end SlsLang
