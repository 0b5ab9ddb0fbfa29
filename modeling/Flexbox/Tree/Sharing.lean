import Flexbox.Tree.Dirty

namespace Flexbox

variable {α : Type}

namespace Tree

def share (t : Tree α) (children : List NodeId) : Tree α :=
  children.foldl (fun t child =>
    t.update child fun n => { n with sharedCount := n.sharedCount + 1 }) t

def unlist (t : Tree α) (parent child : NodeId) : Tree α :=
  t.update child fun n =>
    if n.isOwnedBy parent then { n with owner := none }
    else { n with sharedCount := n.sharedCount - 1 }

end Tree

namespace Edit

variable [Scalar α]

def copyFor (owner child : NodeId) (index : Nat)
    (choose : Option (NodeId → Nat → Option Replacement)) : Edit α NodeId := do
  let n ← node child
  let replacement ← match choose with
    | none => pure none
    | some f => do
      modify fun t => t.tell (.copied owner index)
      pure (f owner index)
  let copy := match replacement with
    | some .fresh => Node.new n.config
    | some .copy | none => n
  let id ← insert { copy with owner := some owner, sharedCount := 0 }
  modify fun t => t.share copy.children
  return id

def copyAll (owner : NodeId) (choose : Option (NodeId → Nat → Option Replacement)) :
    Nat → List NodeId → Edit α (List NodeId)
  | _, [] => return []
  | index, child :: rest => do
    let copy ← copyFor owner child index choose
    modify fun t => t.unlist owner child
    return copy :: (← copyAll owner choose (index + 1) rest)

def ownChildren (owner : NodeId) : Edit α Unit := do
  let n ← node owner
  match n.children with
  | [] => return ()
  | first :: _ =>
    if (← node first).isOwnedBy owner then return ()
    let copies ← copyAll owner n.config.onCopy 0 n.children
    change owner fun n => { n with children := copies }

def childForWrite (owner : NodeId) (index : Nat) : Edit α NodeId := do
  let length := (← node owner).children.length
  if length ≤ index then throw (.indexOutOfBounds index length)
  ownChildren owner
  let n ← node owner
  let some child := n.children[index]? | throw (.indexOutOfBounds index length)
  if !(← node child).isShared then return child
  let copy ← copyFor owner child index n.config.onCopy
  change owner fun n => { n with children := n.children.set index copy }
  modify fun t => t.unlist owner child
  return copy

end Edit

end Flexbox
