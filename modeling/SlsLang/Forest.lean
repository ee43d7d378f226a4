namespace SlsLang

/-- The number of a node within its forest, in the order of creation. -/
abbrev Handle := Nat

structure Node (K P : Type) where
  id : Nat
  kind : K
  payload : P
  name : String
  parent? : Option Handle
  children : Array Handle
deriving DecidableEq, Repr

/-- Nodes, none of which is ever taken away, and the identifier that the next one gets. -/
structure Forest (K P : Type) where
  nodes : Array (Node K P)
  nextId : Nat
deriving DecidableEq, Repr

/-- The text of an identifier. -/
def idText (id : Nat) : String := "#" ++ toString id

namespace Forest

variable {K P : Type}

def empty (firstId : Nat) : Forest K P := ⟨#[], firstId⟩

def size (f : Forest K P) : Nat := f.nodes.size

def get? (f : Forest K P) (h : Handle) : Option (Node K P) := f.nodes[h]?

def parent? (f : Forest K P) (h : Handle) : Option Handle := (f.get? h).bind Node.parent?

def childrenOf (f : Forest K P) (h : Handle) : List Handle :=
  ((f.get? h).map (·.children.toList)).getD []

/-- A new node without parent. Its handle is the size so far. -/
def create (f : Forest K P) (kind : K) (payload : P) (name : String) : Forest K P :=
  ⟨f.nodes.push ⟨f.nextId, kind, payload, name, none, #[]⟩, f.nextId + 1⟩

/-- Puts `child` under `parent`, after the children that are there. -/
def link (f : Forest K P) (parent child : Handle) : Forest K P :=
  let linked := f.nodes.modify child fun n => { n with parent? := some parent }
  { f with nodes := linked.modify parent fun n => { n with children := n.children.push child } }

/-- A new node under `parent`. Where there is no such parent the node stays without one. -/
def append (f : Forest K P) (parent : Handle) (kind : K) (payload : P) (name : String) :
    Forest K P :=
  let child := f.size
  if parent < child then (f.create kind payload name).link parent child
  else f.create kind payload name

theorem get?_eq_none_iff (f : Forest K P) (h : Handle) : f.get? h = none ↔ f.size ≤ h := by
  simp [get?, size]

theorem get?_size (f : Forest K P) : f.get? f.size = none :=
  (f.get?_eq_none_iff f.size).mpr (Nat.le_refl _)

theorem lt_size_of_get? {f : Forest K P} {h : Handle} {n : Node K P} (hn : f.get? h = some n) :
    h < f.size := by
  rw [← Nat.not_le, ← get?_eq_none_iff, hn]
  simp

theorem exists_get? {f : Forest K P} {h : Handle} (hh : h < f.size) : ∃ n, f.get? h = some n :=
  ⟨f.nodes[h], Array.getElem?_eq_getElem hh⟩

theorem size_create (f : Forest K P) (kind : K) (payload : P) (name : String) :
    (f.create kind payload name).size = f.size + 1 := by
  simp [size, create]

theorem get?_create (f : Forest K P) (kind : K) (payload : P) (name : String) (h : Handle) :
    (f.create kind payload name).get? h =
      if h = f.size then some ⟨f.nextId, kind, payload, name, none, #[]⟩ else f.get? h := by
  simp only [get?, create, Array.getElem?_push]
  rfl

theorem size_link (f : Forest K P) (parent child : Handle) : (f.link parent child).size = f.size := by
  simp [size, link]

/-- Linking changes the parent of the one node and the children of the other. -/
theorem get?_link (f : Forest K P) (parent child h : Handle) :
    (f.link parent child).get? h = (f.get? h).map fun n =>
      { n with
        parent? := if h = child then some parent else n.parent?
        children := if h = parent then n.children.push child else n.children } := by
  simp only [get?, link, Array.getElem?_modify, eq_comm (b := h)]
  cases f.nodes[h]? <;> split <;> split <;> simp_all

theorem size_append (f : Forest K P) (parent : Handle) (kind : K) (payload : P) (name : String) :
    (f.append parent kind payload name).size = f.size + 1 := by
  simp only [append]
  split <;> simp [size_link, size_create]

theorem nextId_append (f : Forest K P) (parent : Handle) (kind : K) (payload : P) (name : String) :
    (f.append parent kind payload name).nextId = f.nextId + 1 := by
  simp only [append]
  split <;> rfl

end Forest

end SlsLang
