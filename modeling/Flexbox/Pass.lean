import Flexbox.Node.Box
import Flexbox.Tree.Sharing

namespace Flexbox

structure Stats where
  layouts : Nat := 0
  /-- Nodes sized without placing their children. -/
  measures : Nat := 0
  /-- Most measurements that one node remembered. -/
  maxMeasureCache : Nat := 0
  cachedLayouts : Nat := 0
  cachedMeasures : Nat := 0
  measureCallbacks : Nat := 0
  /-- Most rounds that the flexible lengths of one line took. -/
  maxFlexIterations : Nat := 0
  deriving DecidableEq, Repr

/-- What is asked of a node: a size within the offers, margins included, and with `performLayout`
the places of its children too. -/
structure Request (α : Type) where
  width : Offer α
  height : Offer α
  ownerDirection : Direction
  ownerWidth : Extent α
  ownerHeight : Extent α
  performLayout : Bool

inductive Source
  | computed
  | lastLayout
  | measurement (index : Nat)
  deriving DecidableEq, Repr

structure Visit (α : Type) where
  node : NodeId
  request : Request α
  source : Source

structure Limits (α : Type) where
  /-- Depth allowed beyond the number of slots. -/
  spare : Nat
  /-- What a name that names nothing reads as. -/
  blank : Node α

structure Pass (α : Type) where
  tree : Tree α
  generation : UInt32
  stats : Stats
  /-- The requests made so far, the latest first. -/
  trail : List (Visit α)
  limits : Limits α

abbrev Visitor (α : Type) := NodeId → Request α → Pass α → Pass α

def Limits.initial {α : Type} [Scalar α] : Limits α := ⟨0, default⟩

namespace Pass

variable {α : Type} [Scalar α]

def start (t : Tree α) (limits : Limits α) : Pass α := ⟨t, t.generation, {}, [], limits⟩

def node (p : Pass α) (id : NodeId) : Node α := (p.tree.find? id).getD p.limits.blank

def children (p : Pass α) (id : NodeId) : List NodeId := (p.node id).children

def update (p : Pass α) (id : NodeId) (f : Node α → Node α) : Pass α :=
  { p with tree := p.tree.update id f }

def updateGeometry (p : Pass α) (id : NodeId) (f : Geometry α → Geometry α) : Pass α :=
  p.update id fun n => { n with geometry := f n.geometry }

def redraw (p : Pass α) (id : NodeId) (f : Node α → Geometry α) : Pass α :=
  p.update id fun n => { n with geometry := f n }

def updateGeometryIf (p : Pass α) (condition : Bool) (id : NodeId)
    (f : Geometry α → Geometry α) : Pass α :=
  if condition then p.updateGeometry id f else p

def setPosition (p : Pass α) (id : NodeId) (side : Side) (x : α) : Pass α :=
  p.updateGeometry id (·.setPosition side x)

def setPosition? (p : Pass α) (id : NodeId) (side : Side) : Option α → Pass α
  | some x => p.setPosition id side x
  | none => p

def shiftBy (p : Pass α) (id : NodeId) (side : Side) (f : α → α) : Pass α :=
  p.updateGeometry id fun g => g.setPosition side (f (g.position.get side))

def setMeasured (p : Pass α) (id : NodeId) (width height : α) : Pass α :=
  p.updateGeometry id fun g => { g with measured := ⟨.of width, .of height⟩ }

def count (p : Pass α) (f : Stats → Stats) : Pass α := { p with stats := f p.stats }

def tell (p : Pass α) (e : Event α) : Pass α := { p with tree := p.tree.tell e }

def record (p : Pass α) (v : Visit α) : Pass α := { p with trail := v :: p.trail }

def ownChildren (p : Pass α) (id : NodeId) : Pass α :=
  { p with tree := ((Edit.ownChildren id).apply p.tree).2 }

def depth (p : Pass α) : Nat := p.tree.slots.size + 1 + p.limits.spare

end Pass

end Flexbox
