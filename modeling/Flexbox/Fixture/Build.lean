import Flexbox.Fixture.Grammar
import Flexbox.Fixture.Property
import Flexbox.Fixture.TextBox
import Flexbox.Tree.Lifecycle
import Flexbox.Tree.Attributes

namespace Flexbox.Fixture

inductive BuildError
  | property (error : PropertyError)
  | duplicateName (name : String) (span : Span)
  | tree (fault : Fault)

namespace BuildError

def message : BuildError → String
  | property e => e.message
  | duplicateName name _ => "node name '" ++ name ++ "' is used more than once"
  | tree fault => fault.message

def span? : BuildError → Option Span
  | property e => some e.span
  | duplicateName _ span => some span
  | tree _ => none

end BuildError

structure Builder where
  tree : Tree Float32
  names : List (String × NodeId)

abbrev Build := StateT Builder (Except BuildError)

namespace Build

def edit {β : Type} (e : Edit Float32 β) : Build β := fun b =>
  match e.apply b.tree with
  | (.ok result, tree) => .ok (result, { b with tree := tree })
  | (.error fault, _) => .error (.tree fault)

def bindName (id : NodeId) (name : Located String) : Build Unit := do
  if (← get).names.any fun (taken, _) => taken == name.item then
    throw (.duplicateName name.item name.span)
  modify fun b => { b with names := (name.item, id) :: b.names }

def properties (id : NodeId) : List (Located Property) → Style Float32 → Build (Style Float32)
  | [], s => return s
  | p :: rest, s => do
    if p.item.key.item == "reference-baseline" then
      match p.item.flag with
      | .ok value => edit (Edit.setReferenceBaseline id value)
      | .error e => throw (.property e)
      properties id rest s
    else
      match p.item.apply s with
      | .ok s => properties id rest s
      | .error e => throw (.property e)

mutual

def declaration : Declaration → Build NodeId
  | ⟨kind, name, props, children, _⟩ => do
    let id ← edit (Edit.newNode none)
    if let some name := name then bindName id name
    let style ← properties id props (← edit (Edit.node id)).style
    edit (Edit.setStyle id style)
    match kind with
    | .container => declarations id children
    | .text content => edit (Edit.setMeasure id (textMeasure none content))
    return id

def declarations (owner : NodeId) : List Declaration → Build Unit
  | [] => return ()
  | d :: rest => do
    let child ← declaration d
    edit (Edit.addChild owner child)
    declarations owner rest

end

end Build

structure Built where
  tree : Tree Float32
  root : NodeId
  names : List (String × NodeId)

def build (d : Declaration) (config : Config Float32) : Except BuildError Built :=
  match (Build.declaration d).run ⟨.empty config, []⟩ with
  | .ok (root, b) => .ok ⟨b.tree, root, b.names.reverse⟩
  | .error e => .error e

end Flexbox.Fixture
