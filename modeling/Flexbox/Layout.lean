import Flexbox.Solver.Visit
import Flexbox.Solver.Snapping
import Flexbox.Tree.Lifecycle

namespace Flexbox

variable {α : Type} [Scalar α]

structure Viewport (α : Type) where
  width : Extent α
  height : Extent α
  direction : Direction

namespace Tree

def rootRequest (n : Node α) (v : Viewport α) : Request α where
  width := n.rootOffer .row v.width v.width
  height := n.rootOffer .column v.height v.width
  ownerDirection := v.direction
  ownerWidth := v.width
  ownerHeight := v.height
  performLayout := true

def runPass (t : Tree α) (root : NodeId) (v : Viewport α) (r : Request α) (limits : Limits α) :
    Pass α :=
  let p := Pass.start t limits
  let (computed, p) := Pass.visit p.depth root r p
  if computed then
    let n := p.node root
    let p := p.redraw root fun n => n.placed n.geometry.direction v.width v.height v.width
    { p with tree := p.tree.snap n.config.scale root limits.spare }
  else p

def nextGeneration (t : Tree α) : Tree α := { t with generation := t.generation + 1 }

def clean (t : Tree α) (root : NodeId) (spare : Nat) : Tree α :=
  t.sweepAll (fun n => { n with isDirty := false }) root spare

def withoutLegacyStretch (t : Tree α) (root : NodeId) (spare : Nat) : Tree α :=
  t.sweepAll (fun n => { n with config := { n.config with legacyStretch := false } }) root spare

def sameBoxes (t : Tree α) : Nat → NodeId → NodeId → Bool
  | 0, _, _ => false
  | fuel + 1, a, b =>
    match t.find? a, t.find? b with
    | some left, some right =>
      left.geometry.sameBox right.geometry && left.children.length == right.children.length &&
        (left.children.zip right.children).all fun (l, r) => sameBoxes t fuel l r
    | _, _ => false

end Tree

namespace Edit

def layOutPlainCopy (root : NodeId) (v : Viewport α) (r : Request α) (limits : Limits α) :
    Edit α NodeId := do
  let copy ← deepClone root limits.spare
  modify fun t => t.withoutLegacyStretch copy limits.spare
  propagateDirtyDown copy limits.spare
  change copy Node.resolveSize
  modify fun t => (t.nextGeneration.runPass copy v r limits).tree.clean copy limits.spare
  return copy

def compareLegacyStretch (root : NodeId) (v : Viewport α) (r : Request α) (limits : Limits α) :
    Edit α Unit := do
  let copy ← layOutPlainCopy root v r limits
  let t ← get
  let differs := !t.sameBoxes (t.slots.size + 1 + limits.spare) copy root
  change root fun n => { n with geometry := { n.geometry with legacyStretchMatters := differs } }
  freeRecursive copy limits.spare

def logTree (config : Config α) (root : NodeId) (spare : Nat) : Edit α Unit := do
  if config.printTree then
    match (← get).dump root {} spare with
    | .ok text => modify fun t => t.log config .debug true text
    | .error e => throw e

def calculateLayout (root : NodeId) (v : Viewport α) (limits : Limits α := .initial) :
    Edit α Stats := do
  change root Node.resolveSize
  let n ← node root
  let r := Tree.rootRequest n v
  let pass := (← get).nextGeneration.runPass root v r limits
  set (pass.tree.clean root limits.spare)
  logTree n.config root limits.spare
  if n.config.diffLegacyStretch && (← node root).geometry.usedLegacyStretch then
    compareLegacyStretch root v r limits
  return pass.stats

end Edit

end Flexbox
