import Flexbox.Node

namespace Flexbox

namespace Node

variable {α : Type} [Scalar α]

def resolveSize (n : Node α) : Node α :=
  let pinned (d : Dimension) : Length α :=
    let max := n.style.maxSize.get d
    if !max.isUndefined && max == n.style.minSize.get d then max else n.style.size.get d
  { n with resolvedSize := ⟨pinned .width, pinned .height⟩ }

def resolveDirection (n : Node α) (ownerDirection : Direction) : Direction :=
  match n.style.direction, ownerDirection with
  | .inherit, .inherit => .ltr
  | .inherit, d => d
  | d, _ => d

def resolveFlexBasis (n : Node α) : Length α :=
  let basis := n.style.flexBasis
  if !basis.isAuto && !basis.isUndefined then basis
  else if n.style.flex.holds (fun x => 0 < x) && !n.config.webDefaults then .zero
  else .auto

def resolveGrow (n : Node α) : α :=
  if n.owner.isNone then 0
  else match n.style.flexGrow with
    | .known grow => grow
    | .undefined => match n.style.flex with
      | .known flex => if 0 < flex then flex else 0
      | .undefined => 0

def resolveShrink (n : Node α) : α :=
  if n.owner.isNone then 0
  else match n.style.flexShrink with
    | .known shrink => shrink
    | .undefined =>
      if n.config.webDefaults then defaultShrink true
      else match n.style.flex with
        | .known flex => if flex < 0 then -flex else defaultShrink false
        | .undefined => defaultShrink false

def isFlexible (n : Node α) : Bool :=
  n.style.positionType == .relative && (n.resolveGrow != 0 || n.resolveShrink != 0)

def leadingMarginValue (n : Node α) (axis : FlexDirection) : Length α :=
  let start := n.style.margin.start
  if axis.isRow && !start.isUndefined then start else n.style.margin.get axis.leading.edge

def trailingMarginValue (n : Node α) (axis : FlexDirection) : Length α :=
  let finish := n.style.margin.finish
  if axis.isRow && !finish.isUndefined then finish else n.style.margin.get axis.trailing.edge

def leadingMargin (n : Node α) (axis : FlexDirection) (width : Extent α) : α :=
  let start := n.style.margin.start
  let value :=
    if axis.isRow && !start.isUndefined then start
    else n.style.margin.cascade axis.leading.edge .zero
  (value.resolveMargin width).getD 0

def trailingMargin (n : Node α) (axis : FlexDirection) (width : Extent α) : α :=
  let finish := n.style.margin.finish
  let value :=
    if axis.isRow && !finish.isUndefined then finish
    else n.style.margin.cascade axis.trailing.edge .zero
  (value.resolveMargin width).getD 0

def marginFor (n : Node α) (axis : FlexDirection) (width : Extent α) : α :=
  n.leadingMargin axis width + n.trailingMargin axis width

/-- The thickness of one side: a row takes a start or end value that is not negative, and
otherwise the edge in force counts, never below zero. -/
def thickness (axis : FlexDirection) (logical physical : Extent α) : α :=
  match axis.isRow, logical with
  | true, .known x => if 0 ≤ x then x else Scalar.max (physical.getD 0) 0
  | _, _ => Scalar.max (physical.getD 0) 0

def leadingBorder (n : Node α) (axis : FlexDirection) : α :=
  thickness axis n.style.border.start.magnitude
    (n.style.border.cascade axis.leading.edge .zero).magnitude

def trailingBorder (n : Node α) (axis : FlexDirection) : α :=
  thickness axis n.style.border.finish.magnitude
    (n.style.border.cascade axis.trailing.edge .zero).magnitude

def leadingPadding (n : Node α) (axis : FlexDirection) (width : Extent α) : α :=
  thickness axis (n.style.padding.start.resolve width)
    ((n.style.padding.cascade axis.leading.edge .zero).resolve width)

def trailingPadding (n : Node α) (axis : FlexDirection) (width : Extent α) : α :=
  thickness axis (n.style.padding.finish.resolve width)
    ((n.style.padding.cascade axis.trailing.edge .zero).resolve width)

def leadingFrame (n : Node α) (axis : FlexDirection) (width : Extent α) : α :=
  n.leadingPadding axis width + n.leadingBorder axis

def trailingFrame (n : Node α) (axis : FlexDirection) (width : Extent α) : α :=
  n.trailingPadding axis width + n.trailingBorder axis

def frameFor (n : Node α) (axis : FlexDirection) (width : Extent α) : α :=
  n.leadingFrame axis width + n.trailingFrame axis width

def leadingInset (n : Node α) (axis : FlexDirection) : Length α :=
  let start := if axis.isRow then n.style.position.cascade .start .undefined else .undefined
  start.orElse (n.style.position.cascade axis.leading.edge .undefined)

def trailingInset (n : Node α) (axis : FlexDirection) : Length α :=
  let finish := if axis.isRow then n.style.position.cascade .finish .undefined else .undefined
  finish.orElse (n.style.position.cascade axis.trailing.edge .undefined)

def hasLeadingInset (n : Node α) (axis : FlexDirection) : Bool :=
  !(n.leadingInset axis).isUndefined

def hasTrailingInset (n : Node α) (axis : FlexDirection) : Bool :=
  !(n.trailingInset axis).isUndefined

def leadingPosition (n : Node α) (axis : FlexDirection) (size : Extent α) : α :=
  ((n.leadingInset axis).resolve size).getD 0

def trailingPosition (n : Node α) (axis : FlexDirection) (size : Extent α) : α :=
  ((n.trailingInset axis).resolve size).getD 0

def relativePosition (n : Node α) (axis : FlexDirection) (size : Extent α) : α :=
  if n.hasLeadingInset axis then n.leadingPosition axis size else -n.trailingPosition axis size

def hasDefiniteSize (n : Node α) (axis : FlexDirection) (ownerSize : Extent α) : Bool :=
  match n.resolvedSize.get axis.dimension with
  | .undefined | .auto => false
  | .points x => 0 ≤ x
  | .percent x => 0 ≤ x && ownerSize.isDefined

def preferredSize (n : Node α) (axis : FlexDirection) (ownerSize : Extent α) : Extent α :=
  (n.resolvedSize.get axis.dimension).resolve ownerSize

def hasMeasuredSize (n : Node α) (axis : FlexDirection) : Bool :=
  (n.geometry.measured.get axis.dimension).holds fun x => 0 ≤ x

def clamp (n : Node α) (axis : FlexDirection) (value axisSize : Extent α) : Extent α :=
  let min := (n.style.minSize.get axis.dimension).resolve axisSize
  let max := (n.style.maxSize.get axis.dimension).resolve axisSize
  if max.holds (fun x => 0 ≤ x) && value.gt max then max
  else if min.holds (fun x => 0 ≤ x) && value.lt min then min
  else value

def bound (n : Node α) (axis : FlexDirection) (value axisSize width : Extent α) : α :=
  ((n.clamp axis value axisSize).max (.of (n.frameFor axis width))).getD 0

def measuredSize (n : Node α) (axis : FlexDirection) : α :=
  n.geometry.measuredSize axis.dimension

def outerSize (n : Node α) (axis : FlexDirection) (width : Extent α) : α :=
  n.measuredSize axis + n.marginFor axis width

end Node

end Flexbox
