import SlsLang.Descendants
import SlsLang.SyntaxBuilder
import SlsLang.Proofs.Relocation

namespace SlsLang

namespace Node

variable {K P Q : Type}

def mapPayload (f : P → Q) (n : Node K P) : Node K Q :=
  ⟨n.id, n.kind, f n.payload, n.name, n.parent?, n.children⟩

end Node

namespace Forest

variable {K P Q : Type}

def mapPayload (f : P → Q) (t : Forest K P) : Forest K Q :=
  ⟨t.nodes.map (Node.mapPayload f), t.nextId⟩

theorem size_mapPayload (f : P → Q) (t : Forest K P) : (t.mapPayload f).size = t.size :=
  Array.size_map

theorem link_mapPayload (f : P → Q) (t : Forest K P) (parent child : Handle) :
    (t.mapPayload f).link parent child = (t.link parent child).mapPayload f := by
  simp only [mapPayload, link, Forest.mk.injEq, and_true]
  apply Array.ext_getElem?
  intro i
  simp only [Array.getElem?_modify, Array.getElem?_map]
  cases t.nodes[i]? with
  | none => split <;> split <;> rfl
  | some n => split <;> split <;> rfl

theorem create_mapPayload (f : P → Q) (t : Forest K P) (kind : K) (payload : P) (name : String) :
    (t.mapPayload f).create kind (f payload) name = (t.create kind payload name).mapPayload f := by
  simp only [mapPayload, create, Array.map_push]
  rfl

/-- Payloads are carried along and never looked at. -/
theorem append_mapPayload (f : P → Q) (t : Forest K P) (parent : Handle) (kind : K) (payload : P)
    (name : String) : (t.mapPayload f).append parent kind (f payload) name =
      (t.append parent kind payload name).mapPayload f := by
  simp only [append, size_mapPayload, create_mapPayload, link_mapPayload]
  split <;> rfl

theorem get?_mapPayload (f : P → Q) (t : Forest K P) (h : Handle) :
    (t.mapPayload f).get? h = (t.get? h).map (Node.mapPayload f) := Array.getElem?_map

/-- A walk goes by handles and does not see the payloads. -/
theorem walk_mapPayload (f : P → Q) (t : Forest K P) (steps : Nat) (stack : List (Handle × Nat)) :
    (t.mapPayload f).walk steps stack = t.walk steps stack := by
  induction steps generalizing stack with
  | zero => rfl
  | succ steps ih =>
    match stack with
    | [] => rfl
    | (h, depth) :: stack =>
      have hchildren : (t.mapPayload f).childrenOf h = t.childrenOf h := by
        rw [childrenOf, get?_mapPayload, Option.map_map]
        rfl
      rw [walk_cons, walk_cons, hchildren, ih]

theorem descendants_mapPayload (f : P → Q) (t : Forest K P) (h : Handle) :
    (t.mapPayload f).descendants h = t.descendants h := by
  rw [descendants, size_mapPayload, walk_mapPayload]
  rfl

theorem mapPayload_mapPayload {R : Type} (f : P → Q) (h : Q → R) (t : Forest K P) :
    (t.mapPayload f).mapPayload h = t.mapPayload (h ∘ f) := by
  simp only [mapPayload, Array.map_map]
  rfl

end Forest

section Building

variable (g : Place → Place)

theorem append_relocate (tree : SyntaxTree) (parent : Handle) (kind : SyntaxKind) (t : Token)
    (name : String) :
    (tree.mapPayload (Token.relocate g)).append parent kind (t.relocate g) name =
      (tree.append parent kind t name).mapPayload (Token.relocate g) :=
  tree.append_mapPayload (Token.relocate g) parent kind t name

theorem appendValue_relocate (tree : SyntaxTree) (parent : Handle) (value : Token) :
    appendValue (tree.mapPayload (Token.relocate g)) parent (value.relocate g) =
      (appendValue tree parent value).mapPayload (Token.relocate g) := by
  simp only [appendValue, kind_relocate, text_relocate]
  cases SyntaxKind.forValue? value.kind with
  | none => rfl
  | some kind => exact append_relocate g tree parent kind value value.text

theorem appendStatement_relocate (tree : SyntaxTree) (parent : Handle) (statement : Statement) :
    appendStatement (tree.mapPayload (Token.relocate g)) parent (statement.relocate g) =
      (appendStatement tree parent statement).mapPayload (Token.relocate g) := by
  cases statement with
  | declaration name type init? =>
    cases init? with
    | none => simp only [Statement.relocate, appendStatement, append_relocate, text_relocate,
        Forest.size_mapPayload, Option.map_none]
    | some init => simp only [Statement.relocate, appendStatement, append_relocate, text_relocate,
        Forest.size_mapPayload, Option.map_some, appendValue_relocate]
  | assignment target value =>
    simp only [Statement.relocate, appendStatement, append_relocate, text_relocate,
      Forest.size_mapPayload, appendValue_relocate]
  | call head callee arguments =>
    have hfold : ∀ (called : SyntaxTree) (first : Handle),
        (arguments.map (Token.relocate g)).foldl (fun called argument =>
          appendValue called first argument) (called.mapPayload (Token.relocate g)) =
        (arguments.foldl (fun called argument => appendValue called first argument)
          called).mapPayload (Token.relocate g) := by
      intro called first
      induction arguments generalizing called with
      | nil => rfl
      | cons argument arguments ih =>
        rw [List.map_cons, List.foldl_cons, appendValue_relocate, ih, List.foldl_cons]
    simp only [Statement.relocate, appendStatement, append_relocate, Forest.size_mapPayload, hfold]

namespace SyntaxBuilder

theorem root_addAll (b : SyntaxBuilder) (cs : List Construct) : (b.addAll cs).root = b.root := by
  induction cs generalizing b with
  | nil => rfl
  | cons c cs ih =>
    rw [addAll_cons, ih]
    cases c <;> rfl

def relocate (b : SyntaxBuilder) : SyntaxBuilder :=
  { b with tree := b.tree.mapPayload (Token.relocate g) }

theorem add_relocate (b : SyntaxBuilder) (c : Construct) :
    (b.relocate g).add (c.relocate g) = (b.add c).relocate g := by
  cases c with
  | function name =>
    simp only [Construct.relocate, add, relocate, append_relocate, text_relocate,
      Forest.size_mapPayload]
  | parameter type name =>
    simp only [Construct.relocate, add, relocate, append_relocate, text_relocate,
      Forest.size_mapPayload]
  | body brace =>
    simp only [Construct.relocate, add, relocate, append_relocate, Forest.size_mapPayload]
  | statement s => simp only [Construct.relocate, add, relocate, appendStatement_relocate]

theorem addAll_relocate (b : SyntaxBuilder) (cs : List Construct) :
    (b.relocate g).addAll (cs.map (Construct.relocate g)) = (b.addAll cs).relocate g := by
  induction cs generalizing b with
  | nil => rfl
  | cons c cs ih => rw [List.map_cons, addAll_cons, add_relocate, ih, addAll_cons]

theorem tree_addAll_relocate (b : SyntaxBuilder) (cs : List Construct) :
    (b.addAll cs).tree.mapPayload (Token.relocate g) =
      ((b.relocate g).addAll (cs.map (Construct.relocate g))).tree := by
  rw [addAll_relocate]
  rfl

end SyntaxBuilder

end Building

end SlsLang
