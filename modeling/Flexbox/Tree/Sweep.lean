import Flexbox.Tree

namespace Flexbox.Tree

variable {α γ : Type}

/-- Changes a node and all below it, to a depth of `fuel`. What a node hands down to its children
is found before it is changed. -/
def sweep (change : γ → Node α → Node α) (down : γ → Node α → γ) :
    Nat → γ → NodeId → Tree α → Tree α
  | 0, _, _, t => t
  | fuel + 1, x, id, t =>
    match t.find? id with
    | none => t
    | some n =>
      n.children.foldl (fun t child => sweep change down fuel (down x n) child t)
        (t.update id (change x))

def sweepAll (t : Tree α) (change : Node α → Node α) (root : NodeId) (spare : Nat) : Tree α :=
  t.sweep (fun _ => change) (fun x _ => x) (t.slots.size + 1 + spare) () root

end Flexbox.Tree
