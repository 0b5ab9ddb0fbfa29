import Flexbox.Config
import Flexbox.Geometry

namespace Flexbox

/-- How a host measures content: by the two offers alone, whatever else the node holds. -/
structure Measure (α : Type) where
  /-- The name under which calls are reported. -/
  label : Option String
  size : Offer α → Offer α → Size α

/-- How far below the top of a node its baseline is, by its width and height alone. -/
structure Baseline (α : Type) where
  label : String
  distance : α → α → α

structure Node (α : Type) where
  style : Style α
  geometry : Geometry α
  children : List NodeId
  owner : Option NodeId
  /-- Number of nodes that list this one without owning it. -/
  sharedCount : Nat
  config : Config α
  context : Option String
  measure : Option (Measure α)
  baseline : Option (Baseline α)
  /-- The name under which the host hears that the node became dirty. -/
  dirtied : Option String
  note : Option String
  nodeType : NodeType
  hasNewLayout : Bool
  isDirty : Bool
  isReferenceBaseline : Bool
  line : Nat
  /-- Width and height after equal bounds have taken their place. -/
  resolvedSize : Size (Length α)

namespace Node

variable {α : Type}

def isShared (n : Node α) : Bool := n.sharedCount != 0

def isOwnedBy (n : Node α) (id : NodeId) : Bool := n.owner == some id

def isHidden (n : Node α) : Bool := n.style.display == .none

def isAbsolute (n : Node α) : Bool := n.style.positionType == .absolute

def isInFlow (n : Node α) : Bool := !n.isHidden && !n.isAbsolute

variable [Scalar α]

def new (config : Config α) : Node α where
  style := .default config.webDefaults
  geometry := .initial
  children := []
  owner := none
  sharedCount := 0
  config := config
  context := none
  measure := none
  baseline := none
  dirtied := none
  note := none
  nodeType := .default
  hasNewLayout := true
  isDirty := false
  isReferenceBaseline := false
  line := 0
  resolvedSize := .both .undefined

instance : Inhabited (Node α) := ⟨.new .initial⟩

end Node

end Flexbox
