import Flexbox.Solver.Basis

namespace Flexbox

variable {α : Type} [Scalar α]

structure Space (α : Type) where
  free : α
  grow : α
  /-- Sum of `-shrink · basis`, negative while any item can shrink. -/
  shrink : α

structure Line (α : Type) where
  items : List NodeId
  /-- Number of children from the start of the line to its end, in flow or not. -/
  length : Nat
  /-- Sum of the clamped bases and the margins on the main axis. -/
  consumed : α
  space : Space α
  mainSize : α
  crossSize : α

namespace Node

def clampedBasis (n : Node α) (mainAxis : FlexDirection) (ownerMain : Extent α) : α :=
  (n.clamp mainAxis n.geometry.flexBasis ownerMain).getD 0

end Node

namespace Line

def empty : Line α := ⟨[], 0, 0, ⟨0, 0, 0⟩, 0, 0⟩

def skip (line : Line α) : Line α := { line with length := line.length + 1 }

def add (line : Line α) (id : NodeId) (n : Node α) (basis margin : α) : Line α :=
  let space :=
    if n.isFlexible then
      { line.space with
        grow := line.space.grow + n.resolveGrow
        shrink := line.space.shrink + -n.resolveShrink * n.geometry.flexBasis.getD 0 }
    else line.space
  { line with
    items := line.items ++ [id]
    length := line.length + 1
    consumed := line.consumed + (basis + margin)
    space := space }

def raised (total : α) : α := if 0 < total && total < 1 then 1 else total

/-- Fills a line from the front of `children`. A line that wraps ends where the next item would
not fit, but never before its first item. -/
def fill (c : Container α) (wraps : Bool) (ownerMain innerMain : Extent α) :
    List (NodeId × Node α) → Line α → Line α
  | [], line => line
  | (id, n) :: rest, line =>
    if !n.isInFlow then fill c wraps ownerMain innerMain rest line.skip
    else
      let margin := n.marginFor c.mainAxis c.innerWidth
      let basis := n.clampedBasis c.mainAxis ownerMain
      if wraps && !line.items.isEmpty &&
          (Extent.of (line.consumed + basis + margin)).gt innerMain then line
      else fill c wraps ownerMain innerMain rest (line.add id n basis margin)

def collect (c : Container α) (wraps : Bool) (ownerMain innerMain : Extent α)
    (children : List (NodeId × Node α)) : Line α :=
  let line := fill c wraps ownerMain innerMain children empty
  { line with
    space := { line.space with
      grow := raised line.space.grow
      shrink := raised line.space.shrink } }

end Line

namespace Pass

def collectLine (c : Container α) (innerMain : Extent α) (children : List NodeId) (number : Nat)
    (p : Pass α) : Line α × Pass α :=
  let wraps := (p.node c.id).style.flexWrap != .noWrap
  let line := Line.collect c wraps c.ownerMain innerMain (children.map fun id => (id, p.node id))
  (line, line.items.foldl (fun p id => p.update id fun n => { n with line := number }) p)

end Pass

end Flexbox
