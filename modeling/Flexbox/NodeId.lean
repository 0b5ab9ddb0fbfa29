namespace Flexbox

/-- A slot of the node store together with the version of its content. A slot that is used again
gets a new version, so the name of a freed node never names another one. -/
structure NodeId where
  slot : Nat
  version : Nat
  deriving DecidableEq, Repr

def NodeId.text (id : NodeId) : String :=
  toString id.slot ++ "v" ++ toString id.version

def NodeId.quoted (id : NodeId) : String := "NodeId(" ++ id.text ++ ")"

inductive ResetObstacle
  | children
  | owner
  | shared
  deriving DecidableEq, Repr

def ResetObstacle.text : ResetObstacle → String
  | .children => "it still has children attached"
  | .owner => "it is still attached to an owner"
  | .shared => "it is listed by a cloned parent"

inductive Fault
  | unknownNode (id : NodeId)
  | childOfMeasuredNode (parent : NodeId)
  | measureWithChildren (id : NodeId) (children : Nat)
  | childAlreadyOwned (child owner : NodeId)
  | sharedNode (id : NodeId)
  | duplicateChild (child : NodeId)
  | indexOutOfBounds (index length : Nat)
  | invalidReset (id : NodeId) (obstacle : ResetObstacle)
  | dirtyWithoutMeasure (id : NodeId)
  deriving DecidableEq, Repr

def Fault.message : Fault → String
  | .unknownNode id => "node " ++ id.quoted ++ " does not exist"
  | .childOfMeasuredNode parent =>
    "cannot add a child to node " ++ parent.quoted ++ ": it has a measure function"
  | .measureWithChildren id children =>
    "cannot set a measure function on node " ++ id.quoted ++ ": it has " ++ toString children ++
      " children"
  | .childAlreadyOwned child owner =>
    "child " ++ child.quoted ++ " is already owned by " ++ owner.quoted
  | .sharedNode id =>
    "node " ++ id.quoted ++
      " is shared with a cloned tree; edit it through its owner with update_child_style"
  | .duplicateChild child =>
    "child " ++ child.quoted ++ " appears more than once in the child list"
  | .indexOutOfBounds index length =>
    "child index " ++ toString index ++ " out of bounds for " ++ toString length ++ " children"
  | .invalidReset id obstacle => "cannot reset node " ++ id.quoted ++ ": " ++ obstacle.text
  | .dirtyWithoutMeasure id =>
    "only leaf nodes with a measure function may be marked dirty manually, " ++ id.quoted ++
      " has none"

end Flexbox
