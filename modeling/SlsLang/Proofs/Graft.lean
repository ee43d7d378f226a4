import SlsLang.Proofs.OutlineForest
import SlsLang.Proofs.OutlineMove

namespace SlsLang

open Outline

variable {K P : Type}

/-- Where a reference to a node of one forest goes once that forest is put behind another and the two
share their root. -/
def movedHandle (moved : Nat) (h : Handle) : Handle := if h = 0 then 0 else h + moved

namespace Node

def moveOn (moved : Nat) (n : Node K P) : Node K P :=
  { n with
    id := n.id + moved
    parent? := n.parent?.map (movedHandle moved)
    children := n.children.map (movedHandle moved) }

end Node

namespace Forest

/-- The nodes of `f`, and behind them those of `g` but its root. What is under the root of `g` goes
under the root of `f`, after what is there. -/
def graft (f g : Forest K P) : Forest K P :=
  let moved := f.size - 1
  let brought := ((g.childrenOf 0).map (movedHandle moved)).toArray
  let rooted := f.nodes.modify 0 fun n => { n with children := n.children ++ brought }
  ⟨rooted ++ (g.nodes.toList.tail.map (Node.moveOn moved)).toArray, f.nextId + (g.size - 1)⟩

end Forest

namespace Outline

theorem countsOn_movedHandle {h : Handle} (hpos : 0 < h) (moved : Nat) :
    CountsOn (movedHandle moved) h := by
  intro i
  have hlater : 0 < h + i := Nat.add_pos_left hpos i
  rw [movedHandle, movedHandle, if_neg (Nat.ne_of_gt hlater), if_neg (Nat.ne_of_gt hpos),
    Nat.add_right_comm]

/-- A forest of one outline takes in what is below the first node of another. -/
theorem graft_forest (k k' : K) (p p' : P) (n n' : String) (id : Nat) (os more : List (Outline K P)) :
    ((node k p n os).forest id).graft ((node k' p' n' more).forest id) =
      (node k p n (os ++ more)).forest id := by
  have hmoved : ((node k p n os).forest id).size - 1 = sizeAll os := by
    rw [Forest.size_forest, size, Nat.add_sub_cancel]
  have hmore : ((node k' p' n' more).forest id).size - 1 = sizeAll more := by
    rw [Forest.size_forest, size, Nat.add_sub_cancel]
  have hchildren : ((node k' p' n' more).forest id).childrenOf 0 = handles 1 more := rfl
  have hcounts := countsOn_movedHandle Nat.one_pos (sizeAll os)
  have hbrought : handles (1 + sizeAll os) more =
      (handles 1 more).map (movedHandle (sizeAll os)) := handles_move hcounts more
  have hnodes : nodesAll 0 (1 + sizeAll os) (id + 1 + sizeAll os) more =
      (nodesAll 0 1 (id + 1) more).map (Node.moveOn (sizeAll os)) :=
    nodesAll_move 0 hcounts (id + 1) (sizeAll os) more
  have hnext : id + (sizeAll os + 1) + sizeAll more = id + (sizeAll os + sizeAll more + 1) := by omega
  rw [Forest.graft, hmoved, hmore, hchildren, ← hbrought]
  simp [forest, size, sizeAll_append, nodes, handles_append, nodesAll_append, hnodes, hnext]

end Outline

end SlsLang
