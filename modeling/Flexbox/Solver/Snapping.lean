import Flexbox.Pass
import Flexbox.Tree.Sweep

namespace Flexbox

variable {α : Type} [Scalar α]

namespace PixelGrid

def extent (scale : α) (isText : Bool) (start size : α) : α :=
  let off := isOff size scale
  let far : Rounding := if isText then (if off then .up else .down) else .nearest
  let near : Rounding := if isText then .down else .nearest
  round (start + size) scale far - round start scale near

end PixelGrid

namespace Node

def snapped (n : Node α) (scale left top : α) : Node α :=
  let g := n.geometry
  let isText := n.nodeType == .text
  let rounding : PixelGrid.Rounding := if isText then .down else .nearest
  let along (start : α) (size : Extent α) : Extent α := match size with
    | .known x => .of (PixelGrid.extent scale isText start x)
    | .undefined => .undefined
  { n with
    geometry := { g with
      position := { g.position with
        left := PixelGrid.round g.position.left scale rounding
        top := PixelGrid.round g.position.top scale rounding }
      size := ⟨along (left + g.position.left) g.size.width,
        along (top + g.position.top) g.size.height⟩ } }

def corner (n : Node α) (owner : α × α) : α × α :=
  (owner.1 + n.geometry.position.left, owner.2 + n.geometry.position.top)

end Node

namespace Tree

def snap (t : Tree α) (scale : α) (root : NodeId) (spare : Nat) : Tree α :=
  if scale == 0 then t
  else t.sweep (fun corner n => n.snapped scale corner.1 corner.2) (fun corner n => n.corner corner)
    (t.slots.size + 1 + spare) (0, 0) root

end Tree

end Flexbox
