import Flexbox.Tree.Sharing

namespace Flexbox.Edit

variable {α : Type} [Scalar α]

def setMeasure (id : NodeId) (measure : Measure α) : Edit α Unit := do
  let n ← node id
  if !n.children.isEmpty then throw (.measureWithChildren id n.children.length)
  change id fun n => { n with measure := some measure, nodeType := .text }

def clearMeasure (id : NodeId) : Edit α Unit :=
  change id fun n => { n with measure := none, nodeType := .default }

def setBaseline (id : NodeId) (baseline : Option (Baseline α)) : Edit α Unit :=
  change id fun n => { n with baseline := baseline }

def setDirtied (id : NodeId) (label : Option String) : Edit α Unit :=
  change id fun n => { n with dirtied := label }

def setNote (id : NodeId) (note : Option String) : Edit α Unit :=
  change id fun n => { n with note := note }

def setContext (id : NodeId) (context : Option String) : Edit α Unit :=
  change id fun n => { n with context := context }

def setNodeType (id : NodeId) (nodeType : NodeType) : Edit α Unit :=
  change id fun n => { n with nodeType := nodeType }

def setReferenceBaseline (id : NodeId) (value : Bool) : Edit α Unit := do
  if (← node id).isReferenceBaseline != value then
    change id fun n => { n with isReferenceBaseline := value }
    propagateDirty id

def setNodeConfig (id : NodeId) (config : Config α) : Edit α Unit := do
  change id fun n => { n with config := config }
  propagateDirty id

/-- Changes the style of a node that no other node lists beside its owner. Only a real change
makes it dirty. -/
def updateStyle (id : NodeId) (f : Style α → Style α) : Edit α Unit := do
  let n ← node id
  if n.isShared then throw (.sharedNode id)
  let style := f n.style
  change id fun n => { n with style := style }
  if style != n.style then propagateDirty id

def setStyle (id : NodeId) (style : Style α) : Edit α Unit := updateStyle id fun _ => style

def copyStyle (dst src : NodeId) : Edit α Unit := do
  setStyle dst (← node src).style

def updateChildStyle (owner : NodeId) (index : Nat) (f : Style α → Style α) : Edit α NodeId := do
  let child ← childForWrite owner index
  updateStyle child f
  return child

end Flexbox.Edit
