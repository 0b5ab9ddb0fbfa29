import Flexbox.Solver.Line

namespace Flexbox

variable {α : Type} [Scalar α]

structure FlexItem (α : Type) where
  id : NodeId
  /-- Flex basis within the size bounds. -/
  basis : α
  grow : α
  shrink : α
  /-- The size that comes of a main size. -/
  bound : α → α
  /-- The final size, once a bound was hit. -/
  frozen : Option α

namespace FlexItem

def flexed? (item : FlexItem α) (space : Space α) : Option α :=
  if space.free < 0 then
    if item.shrink != 0 then
      some (if space.shrink == 0 then item.basis + item.shrink
        else item.basis + space.free / space.shrink * item.shrink)
    else none
  else if 0 < space.free then
    if item.grow != 0 then some (item.basis + space.free / space.grow * item.grow) else none
  else none

def finalSize (item : FlexItem α) (space : Space α) : α :=
  match item.frozen with
  | some size => size
  | none => match item.flexed? space with
    | some size => item.bound size
    | none => item.basis

def violation? (item : FlexItem α) (space : Space α) : Option α :=
  match item.frozen, item.flexed? space with
  | none, some size =>
    let bounded := item.bound size
    if Scalar.isNaN size || size == bounded then none else some bounded
  | _, _ => none

end FlexItem

namespace Space

def without (space : Space α) (item : FlexItem α) : Space α :=
  if space.free < 0 then { space with shrink := space.shrink - item.shrink }
  else { space with grow := space.grow - item.grow }

end Space

structure FreezeRound (α : Type) where
  space : Space α
  /-- Space that the frozen items took beyond their bases. -/
  taken : α
  frozeAny : Bool
  seen : List (FlexItem α)

namespace FreezeRound

def step (round : FreezeRound α) (item : FlexItem α) : FreezeRound α :=
  match item.violation? round.space with
  | none => { round with seen := item :: round.seen }
  | some size =>
    { space := round.space.without item
      taken := round.taken + (size - item.basis)
      frozeAny := true
      seen := { item with frozen := some size } :: round.seen }

end FreezeRound

structure Frozen (α : Type) where
  items : List (FlexItem α)
  space : Space α
  rounds : Nat

/-- Freezes in rounds until a round freezes nothing. Every round but the last freezes an item, so
`fuel` need not exceed the number of items. -/
def freeze {α : Type} [Scalar α] (fuel : Nat) (items : List (FlexItem α)) (space : Space α)
    (rounds : Nat) : Frozen α :=
  let round := items.foldl FreezeRound.step ⟨space, 0, false, []⟩
  let items := round.seen.reverse
  let space := { round.space with free := round.space.free - round.taken }
  let rounds := rounds + 1
  match fuel with
  | 0 => ⟨items, space, rounds⟩
  | fuel + 1 => if round.frozeAny then freeze fuel items space rounds else ⟨items, space, rounds⟩

namespace Container

def flexItem (c : Container α) (innerMain : Extent α) (id : NodeId) (n : Node α) : FlexItem α :=
  let basis := n.clampedBasis c.mainAxis c.ownerMain
  { id := id
    basis := basis
    grow := n.resolveGrow
    shrink := -n.resolveShrink * basis
    bound := fun size => n.bound c.mainAxis (.of size) innerMain c.innerWidth
    frozen := none }

def stretchesChild (c : Container α) (parent child : Node α) : Bool :=
  !child.hasDefiniteSize c.crossAxis c.innerCross && parent.alignOf child == .stretch &&
    !child.hasAutoMargin c.crossAxis

def crossOffer (c : Container α) (parent child : Node α) (mainSize : α) (overflows : Bool) :
    Offer α :=
  let margin := child.marginFor c.crossAxis c.innerWidth
  let wraps := parent.style.flexWrap != .noWrap
  match child.style.aspectRatio with
  | .known ratio =>
    let size := if c.isRow then mainSize / ratio else mainSize * ratio
    ⟨Extent.of size + Extent.of margin, .exactly⟩
  | .undefined =>
    if child.hasDefiniteSize c.crossAxis c.innerCross then
      let resolved := child.resolvedSize.get c.crossAxis.dimension
      let size := resolved.resolve c.innerCross + Extent.of margin
      let loose := match resolved with
        | .percent _ => c.crossMode != .exactly
        | _ => false
      ⟨size, if loose || size.isUndefined then .undefined else .exactly⟩
    else if c.innerCross.isDefined && c.crossMode == .exactly && !(wraps && overflows) &&
        c.stretchesChild parent child then
      ⟨c.innerCross, .exactly⟩
    else ⟨c.innerCross, if c.innerCross.isUndefined then .undefined else .atMost⟩

end Container

namespace Pass

def layItem (visit : Visitor α) (c : Container α) (innerMain : Extent α) (overflows : Bool)
    (space : Space α) (state : α × Pass α) (item : FlexItem α) : α × Pass α :=
  let (taken, p) := state
  let parent := p.node c.id
  let child := p.node item.id
  let size := item.finalSize space
  let main : Offer α :=
    ⟨.of (size + child.marginFor c.mainAxis c.innerWidth), .exactly⟩
  let cross := c.crossOffer parent child size overflows
  let request := c.request parent.geometry.direction
    (child.cap c.mainAxis innerMain c.innerWidth main)
    (child.cap c.crossAxis c.innerCross c.innerWidth cross)
    (c.performLayout && !c.stretchesChild parent child)
  let p := visit item.id request p
  let p := p.updateGeometryIf (p.node item.id).geometry.hadOverflow c.id fun g =>
    { g with hadOverflow := true }
  (taken + (size - item.basis), p)

/-- Flexes the items of a line and lays each out at its final main size. The free space that is
left is what the items did not take. -/
def flexLine (visit : Visitor α) (c : Container α) (innerMain : Extent α) (overflows : Bool)
    (line : Line α) (p : Pass α) : Line α × Pass α :=
  let items := line.items.map fun id => c.flexItem innerMain id (p.node id)
  let frozen := freeze items.length items line.space 0
  let p := p.count fun s => { s with maxFlexIterations := max s.maxFlexIterations frozen.rounds }
  let (taken, p) := frozen.items.foldl (layItem visit c innerMain overflows frozen.space) (0, p)
  ({ line with space := { frozen.space with free := line.space.free - taken } }, p)

end Pass

end Flexbox
