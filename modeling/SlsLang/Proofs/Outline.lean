import SlsLang.Proofs.TreeRelocation

namespace SlsLang

/-- What stands at a node and below it, without handles and identifiers. -/
inductive Outline (K P : Type)
  | node (kind : K) (payload : P) (name : String) (below : List (Outline K P))

namespace Outline

variable {K P Q : Type}

mutual

def size : Outline K P → Nat
  | node _ _ _ below => sizeAll below + 1

def sizeAll : List (Outline K P) → Nat
  | [] => 0
  | o :: os => o.size + sizeAll os

end

/-- The handles of outlines laid out one after the other. -/
def handles (h : Handle) : List (Outline K P) → List Handle
  | [] => []
  | o :: os => h :: handles (h + o.size) os

mutual

/-- The nodes of an outline, every node before those below it. The first has the handle `h` and the
identifier `id`, and both count on from there. -/
def nodes (parent? : Option Handle) (h id : Nat) : Outline K P → List (Node K P)
  | node kind payload name below =>
    ⟨id, kind, payload, name, parent?, (handles (h + 1) below).toArray⟩ ::
      nodesAll h (h + 1) (id + 1) below

def nodesAll (parent : Handle) (h id : Nat) : List (Outline K P) → List (Node K P)
  | [] => []
  | o :: os => o.nodes (some parent) h id ++ nodesAll parent (h + o.size) (id + o.size) os

end

mutual

def map (f : P → Q) : Outline K P → Outline K Q
  | node kind payload name below => node kind (f payload) name (mapAll f below)

def mapAll (f : P → Q) : List (Outline K P) → List (Outline K Q)
  | [] => []
  | o :: os => o.map f :: mapAll f os

end

/-- The forest that consists of one outline. -/
def forest (firstId : Nat) (o : Outline K P) : Forest K P :=
  ⟨(o.nodes none 0 firstId).toArray, firstId + o.size⟩

theorem sizeAll_append (os more : List (Outline K P)) :
    sizeAll (os ++ more) = sizeAll os + sizeAll more := by
  induction os with
  | nil => simp [sizeAll]
  | cons o os ih => simp only [List.cons_append, sizeAll, ih, Nat.add_assoc]

theorem handles_append (h : Handle) (os more : List (Outline K P)) :
    handles h (os ++ more) = handles h os ++ handles (h + sizeAll os) more := by
  induction os generalizing h with
  | nil => rfl
  | cons o os ih => simp only [List.cons_append, handles, sizeAll, ih, Nat.add_assoc]

theorem nodesAll_append (parent : Handle) (h id : Nat) (os more : List (Outline K P)) :
    nodesAll parent h id (os ++ more) =
      nodesAll parent h id os ++ nodesAll parent (h + sizeAll os) (id + sizeAll os) more := by
  induction os generalizing h id with
  | nil => rfl
  | cons o os ih =>
    simp only [List.cons_append, nodesAll, sizeAll, ih, List.append_assoc, Nat.add_assoc]

theorem sizeAll_concat (os : List (Outline K P)) (o : Outline K P) :
    sizeAll (os ++ [o]) = sizeAll os + o.size := by
  rw [sizeAll_append]
  rfl

theorem handles_concat (h : Handle) (os : List (Outline K P)) (o : Outline K P) :
    handles h (os ++ [o]) = handles h os ++ [h + sizeAll os] := by
  rw [handles_append]
  rfl

theorem nodesAll_concat (parent : Handle) (h id : Nat) (os : List (Outline K P))
    (o : Outline K P) : nodesAll parent h id (os ++ [o]) =
      nodesAll parent h id os ++ o.nodes (some parent) (h + sizeAll os) (id + sizeAll os) := by
  rw [nodesAll_append, nodesAll, nodesAll, List.append_nil]

mutual

theorem length_nodes (parent? : Option Handle) (h id : Nat) (o : Outline K P) :
    (o.nodes parent? h id).length = o.size := by
  cases o with
  | node kind payload name below =>
    rw [nodes, List.length_cons, length_nodesAll, size]

theorem length_nodesAll (parent : Handle) (h id : Nat) (os : List (Outline K P)) :
    (nodesAll parent h id os).length = sizeAll os := by
  cases os with
  | nil => rfl
  | cons o os => rw [nodesAll, List.length_append, length_nodes, length_nodesAll, sizeAll]

end

theorem mapAll_eq_map (f : P → Q) (os : List (Outline K P)) : mapAll f os = os.map (map f) := by
  induction os with
  | nil => rfl
  | cons o os ih => rw [mapAll, ih, List.map_cons]

mutual

theorem size_map (f : P → Q) (o : Outline K P) : (o.map f).size = o.size := by
  cases o with
  | node kind payload name below => rw [map, size, sizeAll_mapAll, size]

theorem sizeAll_mapAll (f : P → Q) (os : List (Outline K P)) :
    sizeAll (mapAll f os) = sizeAll os := by
  cases os with
  | nil => rfl
  | cons o os => rw [mapAll, sizeAll, size_map, sizeAll_mapAll, sizeAll]

end

theorem handles_mapAll (f : P → Q) (h : Handle) (os : List (Outline K P)) :
    handles h (mapAll f os) = handles h os := by
  induction os generalizing h with
  | nil => rfl
  | cons o os ih => rw [mapAll, handles, size_map, ih, handles]

mutual

theorem nodes_map (f : P → Q) (parent? : Option Handle) (h id : Nat) (o : Outline K P) :
    (o.map f).nodes parent? h id = (o.nodes parent? h id).map (Node.mapPayload f) := by
  cases o with
  | node kind payload name below =>
    rw [map, nodes, handles_mapAll, nodesAll_mapAll, nodes, List.map_cons]
    rfl

theorem nodesAll_mapAll (f : P → Q) (parent : Handle) (h id : Nat) (os : List (Outline K P)) :
    nodesAll parent h id (mapAll f os) = (nodesAll parent h id os).map (Node.mapPayload f) := by
  cases os with
  | nil => rfl
  | cons o os =>
    rw [mapAll, nodesAll, nodes_map, size_map, nodesAll_mapAll, nodesAll, List.map_append]

end

theorem forest_map (f : P → Q) (firstId : Nat) (o : Outline K P) :
    (o.forest firstId).mapPayload f = (o.map f).forest firstId := by
  simp only [forest, Forest.mapPayload, nodes_map, size_map, List.map_toArray]

/-- The last child on the way to where an outline grows, with its elder siblings left out. -/
structure Frame (K P : Type) where
  kind : K
  payload : P
  name : String
  before : List (Outline K P)

/-- An outline with `o` at the end of a way through last children. -/
def fill (way : List (Frame K P)) (o : Outline K P) : Outline K P :=
  way.foldr (fun fr o => node fr.kind fr.payload fr.name (fr.before ++ [o])) o

/-- The number of nodes laid out before the end of the way. -/
def passed : List (Frame K P) → Nat
  | [] => 0
  | fr :: way => sizeAll fr.before + 1 + passed way

/-- The nodes laid out before the end of the way. They do not hang on what stands there. -/
def laid (parent? : Option Handle) (h id : Nat) : List (Frame K P) → List (Node K P)
  | [] => []
  | fr :: way =>
    ⟨id, fr.kind, fr.payload, fr.name, parent?,
      (handles (h + 1) fr.before ++ [h + 1 + sizeAll fr.before]).toArray⟩ ::
      (nodesAll h (h + 1) (id + 1) fr.before ++
        laid (some h) (h + 1 + sizeAll fr.before) (id + 1 + sizeAll fr.before) way)

/-- The parent of what stands at the end of the way. -/
def above (parent? : Option Handle) (h : Handle) : List (Frame K P) → Option Handle
  | [] => parent?
  | fr :: way => above (some h) (h + 1 + sizeAll fr.before) way

theorem length_laid (parent? : Option Handle) (h id : Nat) (way : List (Frame K P)) :
    (laid parent? h id way).length = passed way := by
  induction way generalizing parent? h id with
  | nil => rfl
  | cons fr way ih =>
    simp only [laid, passed, List.length_cons, List.length_append, length_nodesAll, ih]
    omega

theorem nodes_fill (parent? : Option Handle) (h id : Nat) (way : List (Frame K P))
    (o : Outline K P) : (fill way o).nodes parent? h id =
      laid parent? h id way ++ o.nodes (above parent? h way) (h + passed way) (id + passed way) := by
  -- Each frame lays out its own node and the elder siblings, and the rest of the way comes after.
  induction way generalizing parent? h id with
  | nil => rfl
  | cons fr way ih =>
    have hpassed : passed (fr :: way) = 1 + sizeAll fr.before + passed way := by
      rw [passed, Nat.add_comm (sizeAll fr.before)]
    have hfill : fill (fr :: way) o =
        node fr.kind fr.payload fr.name (fr.before ++ [fill way o]) := rfl
    simp only [hfill, nodes, handles_concat, nodesAll_concat, ih, laid, above, hpassed,
      List.cons_append, List.append_assoc, Nat.add_assoc]

theorem size_fill (way : List (Frame K P)) (o : Outline K P) :
    (fill way o).size = passed way + o.size := by
  rw [← length_nodes none 0 0, nodes_fill, List.length_append, length_laid, length_nodes]

theorem fill_append (way more : List (Frame K P)) (o : Outline K P) :
    fill (way ++ more) o = fill way (fill more o) := List.foldr_append

theorem passed_append (way more : List (Frame K P)) :
    passed (way ++ more) = passed way + passed more := by
  induction way with
  | nil => simp [passed]
  | cons fr way ih => simp only [List.cons_append, passed, ih, Nat.add_assoc]

end Outline

end SlsLang
