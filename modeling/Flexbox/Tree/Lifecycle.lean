import Flexbox.Tree.Children

namespace Flexbox.Edit

variable {α : Type} [Scalar α]

def newNode (config : Option (Config α)) : Edit α NodeId := do
  insert (.new (config.getD (← get).config))

def free (id : NodeId) : Edit α Unit := do
  let n ← node id
  if n.isShared then throw (.sharedNode id)
  if let some owner := n.owner then
    modify fun t => t.update owner fun o => { o with children := o.children.filter (· != id) }
  if let some n := (← get).find? id then
    modify fun t => t.erase id
    for child in n.children do
      modify fun t => t.unlist id child

/-- Takes owned children off the front of the list of `root` and hands each that no other node
lists to `release`. One step per child is enough. -/
def releaseChildren (release : NodeId → Edit α Unit) (root : NodeId) : Nat → Edit α Unit
  | 0 => return ()
  | steps + 1 => do
    match (← node root).children with
    | [] => return ()
    | child :: _ =>
      if !(← node child).isOwnedBy root then return ()
      removeChild root child
      if !(← node child).isShared then release child
      releaseChildren release root steps

/-- Frees `root` and all below it that it owns, to a depth of `fuel`. Before a node goes the host
is told what `cleanup` makes of it. -/
def freeSubtree (cleanup : Node α → List (Event α)) : Nat → NodeId → Edit α Unit
  | 0, _ => return ()
  | fuel + 1, root => do
    releaseChildren (freeSubtree cleanup fuel) root ((← node root).children.length + 1)
    let n ← node root
    modify fun t => (cleanup n).foldl Tree.tell t
    free root

def freeRecursiveWith (cleanup : Node α → List (Event α)) (root : NodeId) (spare : Nat := 0) :
    Edit α Unit := do
  freeSubtree cleanup ((← get).slots.size + 1 + spare) root

def freeRecursive (root : NodeId) (spare : Nat := 0) : Edit α Unit :=
  freeRecursiveWith (fun _ => []) root spare

def freeRecursiveReporting (root : NodeId) : Edit α Unit :=
  freeRecursiveWith (fun n => [.released n.context n.children.length]) root

def cloneNode (id : NodeId) : Edit α NodeId := do
  let n ← node id
  let copy ← insert { n with owner := none, sharedCount := 0 }
  modify fun t => t.share n.children
  return copy

def cloneSubtree : Nat → NodeId → Edit α NodeId
  | 0, id => return id
  | fuel + 1, id => do
    let n ← node id
    let copy ← insert { n with owner := none, sharedCount := 0, children := [] }
    let children ← n.children.mapM fun child => do
      let c ← cloneSubtree fuel child
      change c fun n => { n with owner := some copy }
      return c
    change copy fun n => { n with children := children }
    return copy

def deepClone (id : NodeId) (spare : Nat := 0) : Edit α NodeId := do
  cloneSubtree ((← get).slots.size + 1 + spare) id

def reset (id : NodeId) : Edit α Unit := do
  let n ← node id
  if !n.children.isEmpty then throw (.invalidReset id .children)
  if n.owner.isSome then throw (.invalidReset id .owner)
  if n.isShared then throw (.invalidReset id .shared)
  change id fun n => .new n.config

end Flexbox.Edit
