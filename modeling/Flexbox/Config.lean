import Flexbox.NodeId
import Flexbox.Style

namespace Flexbox

/-- What a host can put in the place of a shared child. A node that it made in some other way is not
among the choices. -/
inductive Replacement
  /-- A copy of the child, listing the same children. -/
  | copy
  /-- A new node with the child's settings and nothing else of it. -/
  | fresh
  deriving DecidableEq, Repr

structure Config (α : Type) where
  features : List Feature
  webDefaults : Bool
  legacyStretch : Bool
  /-- Layouts that relied on legacy stretching are repeated without it. -/
  diffLegacyStretch : Bool
  /-- Pixels per point; zero turns rounding off. -/
  scale : α
  /-- The tree is logged after every pass. -/
  printTree : Bool
  /-- Messages are delivered to the host. -/
  logger : Bool
  /-- The host chooses what replaces child `index` of an owner; without a choice it is copied. -/
  onCopy : Option (NodeId → Nat → Option Replacement)
  context : Option String

structure InvalidScale (α : Type) where
  scale : α

namespace InvalidScale

def message {α : Type} [Scalar α] (e : InvalidScale α) : String :=
  "point scale factor must not be negative, got " ++ Scalar.text e.scale

end InvalidScale

namespace Config

variable {α : Type} [Scalar α]

def initial : Config α where
  features := []
  webDefaults := false
  legacyStretch := false
  diffLegacyStretch := false
  scale := 1
  printTree := false
  logger := false
  onCopy := none
  context := none

def withScale (c : Config α) (scale : α) : Except (InvalidScale α) (Config α) :=
  if Scalar.isNaN scale || scale < 0 then .error ⟨scale⟩ else .ok { c with scale := scale }

def withFeature (c : Config α) (feature : Feature) (enabled : Bool) : Config α :=
  let others := c.features.filter (· != feature)
  { c with features := if enabled then others ++ [feature] else others }

def hasFeature (c : Config α) (feature : Feature) : Bool := c.features.contains feature

def describe (c : Config Float32) : String :=
  let names := c.features.map fun | .webFlexBasis => "WebFlexBasis"
  "Config \x7b experimental_features: [" ++ ", ".intercalate names ++
    "], use_web_defaults: " ++ toString c.webDefaults ++
    ", use_legacy_stretch_behaviour: " ++ toString c.legacyStretch ++
    ", point_scale_factor: " ++ NumberForm.record.write c.scale ++
    ", print_tree: " ++ toString c.printTree ++
    ", has_logger: " ++ toString c.logger ++
    ", has_clone_node_callback: " ++ toString c.onCopy.isSome ++ " \x7d"

end Config

end Flexbox
