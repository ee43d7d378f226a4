import SlsLang.Proofs.ForestGrowth

namespace SlsLang

open Outline

variable {K P : Type}

/-- A node as it stands elsewhere: what it refers to is found by `g`, and its identifier is further
on. -/
def Node.move (g : Handle → Handle) (offset : Nat) (n : Node K P) : Node K P :=
  { n with
    id := n.id + offset
    parent? := n.parent?.map g
    children := n.children.map g }

/-- From `h` on, handles go over into handles that count on likewise. -/
def CountsOn (g : Handle → Handle) (h : Handle) : Prop := ∀ i, g (h + i) = g h + i

theorem CountsOn.add {g : Handle → Handle} {h : Handle} (hg : CountsOn g h) (n : Nat) :
    CountsOn g (h + n) := by
  intro i
  rw [Nat.add_assoc, hg, hg, Nat.add_assoc]

theorem countsOn_add (offset h : Nat) : CountsOn (· + offset) h := fun i =>
  Nat.add_right_comm h i offset

namespace Outline

variable {g : Handle → Handle}

theorem handles_move {h : Nat} (hg : CountsOn g h) (os : List (Outline K P)) :
    handles (g h) os = (handles h os).map g := by
  induction os generalizing h with
  | nil => rfl
  | cons o os ih =>
    have htail := ih (hg.add o.size)
    rw [hg] at htail
    rw [handles, handles, List.map_cons, htail]

mutual

theorem nodes_move (parent? : Option Handle) {h : Nat} (hg : CountsOn g h) (id offset : Nat)
    (o : Outline K P) : o.nodes (parent?.map g) (g h) (id + offset) =
      (o.nodes parent? h id).map (Node.move g offset) := by
  cases o with
  | node kind payload name below =>
    have hbelow := nodesAll_move h (hg.add 1) (id + 1) offset below
    have hhandles := handles_move (hg.add 1) below
    rw [hg, Nat.add_right_comm id] at hbelow
    rw [hg] at hhandles
    rw [nodes, nodes, List.map_cons, hbelow, hhandles]
    simp only [Node.move, List.map_toArray]

theorem nodesAll_move (parent : Handle) {h : Nat} (hg : CountsOn g h) (id offset : Nat)
    (os : List (Outline K P)) : nodesAll (g parent) (g h) (id + offset) os =
      (nodesAll parent h id os).map (Node.move g offset) := by
  cases os with
  | nil => rfl
  | cons o os =>
    have hhead := nodes_move (some parent) hg id offset o
    have htail := nodesAll_move parent (hg.add o.size) (id + o.size) offset os
    rw [hg, Nat.add_right_comm id] at htail
    rw [nodesAll, nodesAll, List.map_append, ← hhead, ← htail]
    rfl

end

end Outline

namespace Forest

/-- The nodes of `f`, and behind them those of `g`. No node of the one refers to a node of the
other. -/
def beside (f g : Forest K P) : Forest K P :=
  ⟨f.nodes ++ g.nodes.map (Node.move (· + f.size) f.nextId), f.nextId + g.nextId⟩

def offsetIds (offset : Nat) (f : Forest K P) : Forest K P :=
  ⟨f.nodes.map fun n => { n with id := n.id + offset }, offset + f.nextId⟩

/-- An outline behind other nodes is the forest of that outline beside them. -/
theorem Holds.eq_beside {t f : Forest K P} {o : Outline K P}
    (h : t.Holds f.nodes.toList f.nextId o) : t = f.beside (o.forest 0) := by
  have hsize : (0 : Nat) + f.size = f.nodes.toList.length := Nat.zero_add _
  have hmoved := nodes_move none (countsOn_add f.size 0) 0 f.nextId o
  simp only [Option.map_none, hsize, Nat.zero_add] at hmoved
  have hnodes := h.nodes
  have hnext := h.nextId
  rw [hmoved] at hnodes
  cases t with
  | mk nodes nextId =>
    have harray : nodes = f.nodes ++ ((o.nodes none 0 0).map
        (Node.move (· + f.size) f.nextId)).toArray := by
      apply Array.toList_inj.mp
      simpa using hnodes
    simp only at hnext
    rw [harray, hnext, beside, forest, List.map_toArray, Nat.zero_add]

theorem empty_beside (firstId : Nat) (f : Forest K P) :
    (empty firstId).beside f = f.offsetIds firstId := by
  have hmove : Node.move (· + (empty firstId : Forest K P).size) firstId =
      fun n : Node K P => { n with id := n.id + firstId } := by
    funext n
    simp [Node.move, empty, size]
  simp only [beside, offsetIds]
  rw [show (empty firstId : Forest K P).nextId = firstId from rfl, hmove]
  simp [empty]

theorem nextId_offsetIds (offset : Nat) (f : Forest K P) :
    (f.offsetIds offset).nextId = offset + f.nextId := rfl

theorem ids_offsetIds (offset : Nat) (f : Forest K P) :
    (f.offsetIds offset).nodes.toList.map Node.id =
      (f.nodes.toList.map Node.id).map (offset + ·) := by
  simp [offsetIds, Function.comp_def, Nat.add_comm]

theorem take_beside (f g : Forest K P) :
    (f.beside g).nodes.toList.take f.size = f.nodes.toList := by
  simp [beside, size]

theorem get?_beside_of_le {f : Forest K P} {h : Handle} (hle : f.size ≤ h) (g : Forest K P) :
    (f.beside g).get? h = (g.get? (h - f.size)).map (Node.move (· + f.size) f.nextId) := by
  rw [get?, beside, Array.getElem?_append_right hle, Array.getElem?_map]
  rfl

end Forest

end SlsLang
