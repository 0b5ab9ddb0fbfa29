import Flexbox.Tree

namespace Flexbox

variable {α : Type}

def Node.soiled {α : Type} (n : Node α) : Node α :=
  { n with isDirty := true, geometry := { n.geometry with flexBasis := .undefined } }

namespace Tree

def soil (t : Tree α) (id : NodeId) (n : Node α) : Tree α :=
  let t := t.update id Node.soiled
  match n.dirtied with
  | some label => t.tell (.dirtied label true)
  | none => t

/-- Marks the clean nodes at the start of an owner chain. Every step marks a clean node, so
`fuel` need not exceed the number of slots. -/
def soilChain : Nat → Option NodeId → Tree α → Tree α
  | 0, _, t => t
  | _, none, t => t
  | fuel + 1, some id, t =>
    match t.find? id with
    | none => t
    | some n => if n.isDirty then t else soilChain fuel n.owner (t.soil id n)

def soilUpwards (t : Tree α) (id : NodeId) : Tree α :=
  t.soilChain (t.slots.size + 1) (some id)

end Tree

namespace Edit

def propagateDirty (id : NodeId) : Edit α Unit := do
  let _ ← node id
  modify fun t => t.soilUpwards id

def setDirty (id : NodeId) (dirty : Bool) : Edit α Unit :=
  if dirty then propagateDirty id else change id fun n => { n with isDirty := false }

def markDirty (id : NodeId) : Edit α Unit := do
  let n ← node id
  if n.measure.isNone then throw (.dirtyWithoutMeasure id)
  propagateDirty id

def soilSubtree : Nat → NodeId → Edit α Unit
  | 0, _ => pure ()
  | fuel + 1, id => do
    let n ← node id
    change id Node.soiled
    n.children.forM (soilSubtree fuel)

def propagateDirtyDown (id : NodeId) (spare : Nat := 0) : Edit α Unit := do
  soilSubtree ((← get).slots.size + 1 + spare) id

def setHasNewLayout (id : NodeId) (value : Bool) : Edit α Unit :=
  change id fun n => { n with hasNewLayout := value }

end Edit

end Flexbox
