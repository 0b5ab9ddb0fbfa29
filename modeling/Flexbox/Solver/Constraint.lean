import Flexbox.Pass

namespace Flexbox

variable {α : Type}

namespace Offer

def none : Offer α := ⟨.undefined, .undefined⟩

def exact (size : Extent α) : Offer α :=
  ⟨size, if size.isUndefined then .undefined else .exactly⟩

end Offer

namespace Node

variable [Scalar α]

def rootOffer (n : Node α) (axis : FlexDirection) (ownerSize ownerWidth : Extent α) : Offer α :=
  if n.hasDefiniteSize axis ownerSize then
    ⟨n.preferredSize axis ownerSize + Extent.of (n.marginFor axis ownerWidth), .exactly⟩
  else
    let max := (n.style.maxSize.get axis.dimension).resolve ownerSize
    if max.isDefined then ⟨max, .atMost⟩ else .exact ownerSize

def cap (n : Node α) (axis : FlexDirection) (ownerSize ownerWidth : Extent α) (offer : Offer α) :
    Offer α :=
  let max := (n.style.maxSize.get axis.dimension).resolve ownerSize +
    Extent.of (n.marginFor axis ownerWidth)
  match offer.mode with
  | .exactly | .atMost =>
    if max.isDefined && !offer.size.lt max then { offer with size := max } else offer
  | .undefined => if max.isDefined then ⟨max, .atMost⟩ else offer

def alignOf (parent child : Node α) : Align :=
  let align :=
    if child.style.alignSelf == .auto then parent.style.alignItems else child.style.alignSelf
  if align == .baseline && parent.style.flexDirection.isColumn then .flexStart else align

def hasAutoMargin (n : Node α) (axis : FlexDirection) : Bool :=
  (n.leadingMarginValue axis).isAuto || (n.trailingMarginValue axis).isAuto

end Node

structure Container (α : Type) where
  id : NodeId
  direction : Direction
  mainAxis : FlexDirection
  crossAxis : FlexDirection
  ownerWidth : Extent α
  ownerHeight : Extent α
  /-- Space inside margins, padding and border. -/
  innerWidth : Extent α
  innerHeight : Extent α
  widthMode : MeasureMode
  heightMode : MeasureMode
  performLayout : Bool

namespace Container

def isRow (c : Container α) : Bool := c.mainAxis.isRow

def innerMain (c : Container α) : Extent α := if c.isRow then c.innerWidth else c.innerHeight
def innerCross (c : Container α) : Extent α := if c.isRow then c.innerHeight else c.innerWidth
def ownerMain (c : Container α) : Extent α := if c.isRow then c.ownerWidth else c.ownerHeight
def ownerCross (c : Container α) : Extent α := if c.isRow then c.ownerHeight else c.ownerWidth
def mainMode (c : Container α) : MeasureMode := if c.isRow then c.widthMode else c.heightMode
def crossMode (c : Container α) : MeasureMode := if c.isRow then c.heightMode else c.widthMode

def request (c : Container α) (direction : Direction) (main cross : Offer α)
    (performLayout : Bool) : Request α where
  width := if c.isRow then main else cross
  height := if c.isRow then cross else main
  ownerDirection := direction
  ownerWidth := c.innerWidth
  ownerHeight := c.innerHeight
  performLayout := performLayout

end Container

end Flexbox
