import Flexbox.Tree.Sharing

namespace Flexbox.Edit

variable {α : Type} [Scalar α]

def insertChild (owner child : NodeId) (index : Nat) : Edit α Unit := do
  if let some current := (← node child).owner then throw (.childAlreadyOwned child current)
  let parent ← node owner
  if parent.measure.isSome then throw (.childOfMeasuredNode owner)
  if parent.children.length < index then
    throw (.indexOutOfBounds index parent.children.length)
  ownChildren owner
  change owner fun n => { n with children := n.children.insertIdx index child }
  change child fun n => { n with owner := some owner }
  propagateDirty owner

def addChild (owner child : NodeId) : Edit α Unit := do
  insertChild owner child (← node owner).children.length

def copyOthers (owner child : NodeId) (choose : Option (NodeId → Nat → Option Replacement)) :
    Nat → List NodeId → Edit α (List NodeId)
  | _, [] => return []
  | index, old :: rest => do
    if old == child then
      propagateDirty owner
      modify fun t => t.unlist owner old
      copyOthers owner child choose index rest
    else
      let copy ← copyFor owner old index choose
      modify fun t => t.unlist owner old
      return copy :: (← copyOthers owner child choose (index + 1) rest)

def removeChild (owner child : NodeId) : Edit α Unit := do
  let n ← node owner
  match n.children with
  | [] => return ()
  | first :: _ =>
    if (← node first).isOwnedBy owner then
      if n.children.contains child then
        change owner fun n => { n with children := n.children.erase child }
        change child fun n => { n with geometry := .initial, owner := none }
        propagateDirty owner
    else
      let kept ← copyOthers owner child n.config.onCopy 0 n.children
      change owner fun n => { n with children := kept }

def removeAllChildren (owner : NodeId) : Edit α Unit := do
  let children := (← node owner).children
  change owner fun n => { n with children := [] }
  match children with
  | [] => return ()
  | first :: _ =>
    let owned := (← node first).isOwnedBy owner
    for child in children do
      if owned then change child fun n => { n with geometry := .initial }
      modify fun t => t.unlist owner child
    propagateDirty owner

def forgetOwned (owner child : NodeId) : Edit α Unit :=
  modify fun t => t.update child fun n =>
    if n.isOwnedBy owner then { n with geometry := .initial } else n

def replaceChild (owner old new : NodeId) : Edit α Unit := do
  let some index := (← node owner).children.idxOf? old | throw (.unknownNode old)
  if let some current := (← node new).owner then
    if current != owner then throw (.childAlreadyOwned new current)
  ownChildren owner
  let some replaced := (← node owner).children[index]? | throw (.unknownNode old)
  change owner fun n => { n with children := n.children.set index new }
  forgetOwned owner replaced
  modify fun t => t.unlist owner replaced
  change new fun n => { n with owner := some owner }
  propagateDirty owner

def checkChildren (owner : NodeId) : List NodeId → List NodeId → Edit α Unit
  | _, [] => return ()
  | seen, child :: rest => do
    if seen.contains child then throw (.duplicateChild child)
    if let some current := (← node child).owner then
      if current != owner then throw (.childAlreadyOwned child current)
    checkChildren owner (child :: seen) rest

def setChildren (owner : NodeId) (children : List NodeId) : Edit α Unit := do
  if (← node owner).measure.isSome && !children.isEmpty then throw (.childOfMeasuredNode owner)
  checkChildren owner [] children
  let old := (← node owner).children
  change owner fun n => { n with children := [] }
  for child in old do
    if !children.contains child then forgetOwned owner child
    modify fun t => t.unlist owner child
  if old.isEmpty && children.isEmpty then return ()
  change owner fun n => { n with children := children }
  for child in children do
    change child fun n => { n with owner := some owner }
  propagateDirty owner

end Flexbox.Edit
