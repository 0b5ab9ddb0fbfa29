import Flexbox.Solver.Lines

namespace Flexbox

variable {α : Type} [Scalar α]

namespace Node

/-- The remembered answer to a request. Measured leaves take any that still fits, other nodes
only one to the same request; a full layout is answered by the last full layout alone. -/
def remembered? (n : Node α) (r : Request α) : Option Source :=
  let among (accepts : Measurement α → Bool) : Option Source :=
    (n.geometry.measurements.findIdx? accepts).map .measurement
  if n.measure.isSome then
    let fits (m : Measurement α) : Bool :=
      m.answers r.width r.height (n.marginFor .row r.ownerWidth) (n.marginFor .column r.ownerWidth)
        n.config.scale
    if fits n.geometry.lastLayout then some .lastLayout else among fits
  else
    let same (m : Measurement α) : Bool := m.matchesRequest r.width r.height
    if r.performLayout then
      if same n.geometry.lastLayout then some .lastLayout else none
    else among same

/-- Whether what the node remembers is out of date: it is dirty and was not visited in this pass,
or its owner's direction changed. -/
def isOutdated (n : Node α) (generation : UInt32) (ownerDirection : Direction) : Bool :=
  (n.isDirty && n.geometry.generation != generation) ||
    n.geometry.lastOwnerDirection != some ownerDirection

end Node

namespace Geometry

def forget (g : Geometry α) : Geometry α := { g with measurements := [], lastLayout := .blank }

def entry? (g : Geometry α) : Source → Option (Measurement α)
  | .computed => none
  | .lastLayout => some g.lastLayout
  | .measurement index => g.measurements[index]?

def restore (g : Geometry α) (m : Measurement α) : Geometry α :=
  { g with measured := ⟨.of m.computedWidth, .of m.computedHeight⟩ }

def roomForOne (g : Geometry α) : List (Measurement α) :=
  if g.measurements.length == measurementCapacity then [] else g.measurements

def remember (g : Geometry α) (r : Request α) : Geometry α :=
  let kept := g.roomForOne
  let entry := Measurement.ofOffers r.width r.height (g.measured.width.getD (-1))
    (g.measured.height.getD (-1))
  if r.performLayout then { g with lastLayout := entry, measurements := kept }
  else { g with measurements := kept ++ [entry] }

end Geometry

namespace Pass

def layNode (visit : Visitor α) (id : NodeId) (r : Request α) (p : Pass α) : Pass α :=
  let p := p.count fun s =>
    if r.performLayout then { s with layouts := s.layouts + 1 }
    else { s with measures := s.measures + 1 }
  let n := p.node id
  let direction := n.resolveDirection r.ownerDirection
  let p := p.redraw id fun n => n.withBoxEdges direction r.ownerWidth
  let n := p.node id
  match n.measure with
  | some measure => p.measureLeaf id measure r
  | none =>
    if n.children.isEmpty then
      let size := n.emptySize r
      p.setMeasured id size.width size.height
    else if !r.performLayout && r.isSettled then
      let size := n.settledSize r
      p.setMeasured id size.width size.height
    else p.layContainer visit id direction r

def compute (visit : Visitor α) (id : NodeId) (r : Request α) (p : Pass α) : Pass α :=
  let p := (p.record ⟨id, r, .computed⟩).layNode visit id r
  let p := p.updateGeometry id fun g => { g with lastOwnerDirection := some r.ownerDirection }
  let used := (p.node id).geometry.roomForOne.length + 1
  let p := p.updateGeometry id fun g => g.remember r
  p.count fun s => { s with maxMeasureCache := max s.maxMeasureCache used }

def restore (id : NodeId) (r : Request α) (source : Source) (p : Pass α) : Pass α :=
  let p := p.record ⟨id, r, source⟩
  let p := p.updateGeometry id fun g => match g.entry? source with
    | some m => g.restore m
    | none => g
  p.count fun s =>
    if r.performLayout then { s with cachedLayouts := s.cachedLayouts + 1 }
    else { s with cachedMeasures := s.cachedMeasures + 1 }

def finish (id : NodeId) (r : Request α) (p : Pass α) : Pass α :=
  let p := if r.performLayout then
      p.update id fun n =>
        { n with geometry := { n.geometry with size := n.geometry.measured }, hasNewLayout := true }
    else p
  p.updateGeometry id fun g => { g with generation := p.generation }

/-- Answers a request for a node whose children are at most `fuel` deep. Also tells whether it
was computed. -/
def visit : Nat → NodeId → Request α → Pass α → Bool × Pass α
  | 0, _, _, p => (false, p)
  | fuel + 1, id, r, p =>
    let n := p.node id
    let p :=
      if n.isOutdated p.generation r.ownerDirection then p.updateGeometry id Geometry.forget else p
    match (p.node id).remembered? r with
    | some source => (false, (p.restore id r source).finish id r)
    | none => (true, (p.compute (fun id r p => (visit fuel id r p).2) id r).finish id r)

end Pass

end Flexbox
