import SlsLang.Forest

namespace SlsLang

/-- Why a node cannot be put under another, with the identifiers of the nodes. -/
inductive AttachFault
  | noSuchNode
  | alreadyAttached (child : Nat)
  | cycle (parent child : Nat)
deriving DecidableEq, Repr

def AttachFault.message : AttachFault → String
  | noSuchNode => "no such node"
  | alreadyAttached child => "node " ++ idText child ++ " already has a parent"
  | cycle parent child =>
    "attaching node " ++ idText child ++ " under " ++ idText parent ++ " would create a cycle"

namespace Forest

variable {K P : Type}

/-- A node, its parent and so on upwards, at most `steps` nodes. -/
def climb (f : Forest K P) : Nat → Handle → List Handle
  | 0, _ => []
  | steps + 1, h => h :: match f.parent? h with
    | none => []
    | some p => climb f steps p

/-- A node, its parent and so on up to a node without parent. No path without repetition is longer
than the forest is large. -/
def ancestors (f : Forest K P) (h : Handle) : List Handle := f.climb f.size h

/-- Puts a node without parent under another node, unless the other stands below it. -/
def attach (f : Forest K P) (parent child : Handle) : Except AttachFault (Forest K P) :=
  match f.get? parent, f.get? child with
  | some p, some c =>
    if c.parent?.isSome then .error (.alreadyAttached c.id)
    else if child ∈ f.ancestors parent then .error (.cycle p.id c.id)
    else .ok (f.link parent child)
  | _, _ => .error .noSuchNode

end Forest

end SlsLang
