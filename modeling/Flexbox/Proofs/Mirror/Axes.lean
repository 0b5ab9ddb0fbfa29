import Flexbox.Layout

namespace Flexbox

variable {α : Type}

def Direction.mirror : Direction → Direction
  | .inherit => .inherit
  | .ltr => .rtl
  | .rtl => .ltr

def Side.mirror : Side → Side
  | .left => .right
  | .right => .left
  | .top => .top
  | .bottom => .bottom

namespace FlexDirection

def mirror : FlexDirection → FlexDirection
  | .row => .rowReverse
  | .rowReverse => .row
  | .column => .column
  | .columnReverse => .columnReverse

/-- The leading side of the row axis of a container, which is its main or its cross axis. -/
def rowSide (d : FlexDirection) (direction : Direction) : Side :=
  (if d.isRow then d.resolve direction else d.cross direction).leading

theorem mirror_mirror (d : FlexDirection) : d.mirror.mirror = d := by
  cases d <;> rfl

theorem resolve_rtl (d : FlexDirection) : d.resolve .rtl = (d.resolve .ltr).mirror := by
  cases d <;> rfl

theorem cross_rtl (d : FlexDirection) : d.mirror.cross .rtl = (d.cross .ltr).mirror := by
  cases d <;> rfl

theorem rowSide_rtl (d : FlexDirection) : d.rowSide .rtl = (d.rowSide .ltr).mirror := by
  cases d <;> rfl

end FlexDirection

def Edges.mirror {β : Type} (e : Edges β) : Edges β := { e with left := e.right, right := e.left }

def Edges.isPhysical {α : Type} (e : Edges (Length α)) : Bool :=
  e.start.isUndefined && e.finish.isUndefined

namespace Style

def mirror (s : Style α) : Style α :=
  { s with
    margin := s.margin.mirror
    position := s.position.mirror
    padding := s.padding.mirror
    border := s.border.mirror }

/-- No edge follows the writing direction, which is that of the owner. -/
structure Undirected (s : Style α) : Prop where
  margin : s.margin.isPhysical
  position : s.position.isPhysical
  padding : s.padding.isPhysical
  border : s.border.isPhysical
  direction : s.direction = .inherit

end Style

namespace Length

variable [Scalar α] {l : Length α}

theorem magnitude_of_isUndefined (h : l.isUndefined) : l.magnitude = .undefined := by
  cases l <;> first | rfl | cases h

theorem resolve_of_isUndefined (h : l.isUndefined) (reference : Extent α) :
    l.resolve reference = .undefined := by
  cases l <;> first | rfl | cases h

end Length

def Tree.mirrored {α : Type} (t : Tree α) : Tree α :=
  { t with
    slots := t.slots.map fun s =>
      { s with node := s.node.map fun n => { n with style := n.style.mirror } } }

namespace Node

variable [Scalar α] {n m parent parent' : Node α}

theorem leadingMargin_mirror (h : n.style.margin.isPhysical) (axis : FlexDirection)
    (hrow : axis.isRow) (width : Extent α) :
    n.leadingMargin axis.mirror width = n.trailingMargin axis width ∧
      n.trailingMargin axis.mirror width = n.leadingMargin axis width := by
  simp only [Edges.isPhysical, Bool.and_eq_true] at h
  cases axis <;> simp [FlexDirection.isRow] at hrow <;>
    simp [leadingMargin, trailingMargin, h.1, h.2, FlexDirection.mirror, FlexDirection.leading,
      FlexDirection.trailing]

theorem thickness_undefined (axis : FlexDirection) (physical : Extent α) :
    thickness axis .undefined physical = Scalar.max (physical.getD 0) 0 := by
  cases axis <;> rfl

theorem leadingBorder_mirror (h : n.style.border.isPhysical) (axis : FlexDirection)
    (hrow : axis.isRow) :
    n.leadingBorder axis.mirror = n.trailingBorder axis ∧
      n.trailingBorder axis.mirror = n.leadingBorder axis := by
  simp only [Edges.isPhysical, Bool.and_eq_true] at h
  unfold leadingBorder trailingBorder
  rw [Length.magnitude_of_isUndefined h.1, Length.magnitude_of_isUndefined h.2]
  simp only [thickness_undefined]
  cases axis <;> simp [FlexDirection.isRow] at hrow <;> exact ⟨rfl, rfl⟩

theorem leadingPadding_mirror (h : n.style.padding.isPhysical) (axis : FlexDirection)
    (hrow : axis.isRow) (width : Extent α) :
    n.leadingPadding axis.mirror width = n.trailingPadding axis width ∧
      n.trailingPadding axis.mirror width = n.leadingPadding axis width := by
  simp only [Edges.isPhysical, Bool.and_eq_true] at h
  unfold leadingPadding trailingPadding
  rw [Length.resolve_of_isUndefined h.1, Length.resolve_of_isUndefined h.2]
  simp only [thickness_undefined]
  cases axis <;> simp [FlexDirection.isRow] at hrow <;> exact ⟨rfl, rfl⟩

omit [Scalar α] in
theorem leadingInset_mirror (h : n.style.position.isPhysical) (axis : FlexDirection)
    (hrow : axis.isRow) :
    n.leadingInset axis.mirror = n.trailingInset axis ∧
      n.trailingInset axis.mirror = n.leadingInset axis := by
  simp only [Edges.isPhysical, Bool.and_eq_true] at h
  have hsame : n.style.position.cascade .start .undefined =
      n.style.position.cascade .finish .undefined := by
    simp [Edges.cascade, Edges.get, Edge.shorthand?, Length.orElse, h.1, h.2, Edge.isLogical]
  unfold leadingInset trailingInset
  rw [hsame]
  cases axis <;> simp [FlexDirection.isRow] at hrow <;> exact ⟨rfl, rfl⟩

section Sums

variable [Std.Commutative (fun a b : α => a + b)]

theorem marginFor_mirror (h : n.style.Undirected) (axis : FlexDirection) (width : Extent α) :
    n.marginFor axis.mirror width = n.marginFor axis width := by
  by_cases hrow : axis.isRow
  · obtain ⟨hleading, htrailing⟩ := leadingMargin_mirror h.margin axis hrow width
    rw [marginFor, hleading, htrailing]
    exact Std.Commutative.comm _ _
  · cases axis <;> first | rfl | exact absurd rfl hrow

theorem frameFor_mirror (h : n.style.Undirected) (axis : FlexDirection) (width : Extent α) :
    n.frameFor axis.mirror width = n.frameFor axis width := by
  by_cases hrow : axis.isRow
  · obtain ⟨hleading, htrailing⟩ := leadingPadding_mirror h.padding axis hrow width
    obtain ⟨hleading', htrailing'⟩ := leadingBorder_mirror h.border axis hrow
    rw [frameFor, leadingFrame, trailingFrame, hleading, htrailing, hleading', htrailing']
    exact Std.Commutative.comm _ _
  · cases axis <;> first | rfl | exact absurd rfl hrow

end Sums

end Node

end Flexbox
