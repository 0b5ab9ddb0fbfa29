import Flexbox.Node

namespace Flexbox

inductive Event (α : Type)
  | measured (label : Option String) (width height : Offer α)
  | baseline (label : String) (width height : α)
  | dirtied (label : String) (isDirty : Bool)
  | log (level : LogLevel) (hasNode : Bool) (message : String)
  | copied (owner : NodeId) (index : Nat)
  | released (context : Option String) (children : Nat)

structure Slot (α : Type) where
  version : Nat
  node : Option (Node α)

structure Tree (α : Type) where
  slots : Array (Slot α)
  /-- Emptied slots, the last emptied first. -/
  free : List Nat
  config : Config α
  generation : UInt32
  /-- What the host was told, the latest first. -/
  journal : List (Event α)

namespace Tree

variable {α : Type}

def empty (config : Config α) : Tree α := ⟨#[⟨0, none⟩], [], config, 0, []⟩

def find? (t : Tree α) (id : NodeId) : Option (Node α) :=
  match t.slots[id.slot]? with
  | some s => if s.version == id.version then s.node else none
  | none => none

def contains (t : Tree α) (id : NodeId) : Bool := (t.find? id).isSome

def insert (t : Tree α) (n : Node α) : NodeId × Tree α :=
  match t.free with
  | [] => (⟨t.slots.size, 1⟩, { t with slots := t.slots.push ⟨1, some n⟩ })
  | slot :: rest =>
    let version := (t.slots[slot]?.map Slot.version).getD 0 + 1
    (⟨slot, version⟩,
      { t with slots := t.slots.modify slot fun _ => ⟨version, some n⟩, free := rest })

def erase (t : Tree α) (id : NodeId) : Tree α :=
  if t.contains id then
    { t with
      slots := t.slots.modify id.slot fun s => ⟨s.version + 1, none⟩
      free := id.slot :: t.free }
  else t

def update (t : Tree α) (id : NodeId) (f : Node α → Node α) : Tree α :=
  { t with
    slots := t.slots.modify id.slot fun s =>
      if s.version == id.version then { s with node := s.node.map f } else s }

def tell (t : Tree α) (e : Event α) : Tree α := { t with journal := e :: t.journal }

def ids (t : Tree α) : List NodeId :=
  t.slots.toList.zipIdx.filterMap fun (s, i) => s.node.map fun _ => ⟨i, s.version⟩

def size (t : Tree α) : Nat := t.slots.foldl (fun n s => if s.node.isSome then n + 1 else n) 0

end Tree

abbrev Edit (α : Type) := ExceptT Fault (StateM (Tree α))

namespace Edit

variable {α β : Type}

def apply (e : Edit α β) (t : Tree α) : Except Fault β × Tree α := e.run.run t

def node (id : NodeId) : Edit α (Node α) := do
  match (← get).find? id with
  | some n => return n
  | none => throw (.unknownNode id)

def change (id : NodeId) (f : Node α → Node α) : Edit α Unit := do
  let _ ← node id
  modify fun t => t.update id f

def insert (n : Node α) : Edit α NodeId :=
  modifyGet fun t => t.insert n

end Edit

end Flexbox
