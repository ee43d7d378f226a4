import SlsLang.Forest

namespace SlsLang.Forest

variable {K P : Type}

/-- Takes nodes off a stack, at most `steps` of them, and puts the children of each in its place.
The nodes already taken come latest first. -/
def walkAfter (f : Forest K P) (done : List (Handle × Nat)) :
    Nat → List (Handle × Nat) → List (Handle × Nat)
  | 0, _ => done.reverse
  | _ + 1, [] => done.reverse
  | steps + 1, (h, depth) :: stack =>
    walkAfter f ((h, depth) :: done) steps ((f.childrenOf h).map (·, depth + 1) ++ stack)

def walk (f : Forest K P) (steps : Nat) (stack : List (Handle × Nat)) : List (Handle × Nat) :=
  f.walkAfter [] steps stack

/-- A node and all nodes below it with their depths, every node before its children. -/
def descendants (f : Forest K P) (h : Handle) : List (Handle × Nat) := f.walk f.size [(h, 0)]

theorem walkAfter_eq (f : Forest K P) (done : List (Handle × Nat)) (steps : Nat)
    (stack : List (Handle × Nat)) :
    f.walkAfter done steps stack = done.reverse ++ f.walk steps stack := by
  induction steps generalizing done stack with
  | zero => simp [walk, walkAfter]
  | succ steps ih =>
    match stack with
    | [] => simp [walk, walkAfter]
    | (h, depth) :: stack =>
      rw [walk, walkAfter, walkAfter, ih, ih [(h, depth)]]
      simp

theorem walk_nil (f : Forest K P) (steps : Nat) : f.walk steps [] = [] := by
  cases steps <;> rfl

theorem walk_cons (f : Forest K P) (steps : Nat) (h : Handle) (depth : Nat)
    (stack : List (Handle × Nat)) :
    f.walk (steps + 1) ((h, depth) :: stack) =
      (h, depth) :: f.walk steps ((f.childrenOf h).map (·, depth + 1) ++ stack) := by
  rw [walk, walkAfter, walkAfter_eq]
  rfl

end SlsLang.Forest
