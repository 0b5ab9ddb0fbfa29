import Flexbox.Solver.Constraint
import Flexbox.Dump

namespace Flexbox

variable {α : Type} [Scalar α]

namespace Node

/-- The child whose baseline stands for the node's: on the first line, the first that aligns to
the baseline or is marked as reference, else the first in flow. -/
def baselineChild? (n : Node α) : List (NodeId × Node α) → Option NodeId → Option NodeId
  | [], found => found
  | (id, child) :: rest, found =>
    if child.line != 0 then found
    else if child.isAbsolute then n.baselineChild? rest found
    else if n.alignOf child == .baseline || child.isReferenceBaseline then some id
    else n.baselineChild? rest (found.or (some id))

end Node

namespace Pass

def baselineWithin : Nat → NodeId → Pass α → α × Pass α
  | 0, id, p => ((p.node id).geometry.measuredSize .height, p)
  | fuel + 1, id, p =>
    let n := p.node id
    let height := n.geometry.measuredSize .height
    match n.baseline with
    | some baseline =>
      let width := n.geometry.measuredSize .width
      let value := baseline.distance width height
      let p := p.tell (.baseline baseline.label width height)
      if Scalar.isNaN value then
        (height, { p with
          tree := p.tree.log n.config .error true
            "baseline function returned NaN, using the node's height" })
      else (value, p)
    | none =>
      match n.baselineChild? (n.children.map fun child => (child, p.node child)) none with
      | some child =>
        let (value, p) := baselineWithin fuel child p
        (value + (p.node child).geometry.position.top, p)
      | none => (height, p)

def baseline (p : Pass α) (id : NodeId) : α × Pass α := baselineWithin p.depth id p

def hasBaselineChildren (p : Pass α) (id : NodeId) : Bool :=
  let n := p.node id
  if n.style.flexDirection.isColumn then false
  else n.style.alignItems == .baseline || n.children.any fun child =>
    let style := (p.node child).style
    style.positionType == .relative && style.alignSelf == .baseline

def ascentAndDescent (p : Pass α) (width : Extent α) (id : NodeId) : (α × α) × Pass α :=
  let n := p.node id
  let (value, p) := p.baseline id
  let ascent := value + n.leadingMargin .column width
  let descent := n.geometry.measuredSize .height + n.marginFor .column width - ascent
  ((ascent, descent), p)

end Pass

end Flexbox
