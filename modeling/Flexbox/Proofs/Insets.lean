import Flexbox.Proofs.Territory
import Flexbox.Proofs.Lockstep

namespace Flexbox

/-- An axis along which `n` is placed, where it lays its children out in `direction`. -/
def Node.HasAxis {α : Type} (n : Node α) (direction : Direction) (axis : FlexDirection) : Prop :=
  axis = n.style.flexDirection.resolve direction ∨
    axis = (n.style.flexDirection.resolve direction).cross direction

theorem FlexDirection.isRow_resolve (d : FlexDirection) (direction : Direction) :
    (d.resolve direction).isRow = d.isRow := by
  cases direction <;> cases d <;> rfl

theorem FlexDirection.isRow_cross (d : FlexDirection) (direction : Direction) :
    (d.cross direction).isRow = !d.isRow := by
  cases direction <;> cases d <;> rfl

theorem FlexDirection.leading_ne_trailing (d : FlexDirection) : d.leading ≠ d.trailing := by
  cases d <;> decide

theorem FlexDirection.sides_ne {a b : FlexDirection} (h : a.isRow ≠ b.isRow) :
    (a.leading ≠ b.leading ∧ a.leading ≠ b.trailing) ∧
      a.trailing ≠ b.leading ∧ a.trailing ≠ b.trailing := by
  cases a <;> cases b <;> first | exact absurd rfl h | decide

variable {α : Type} [Scalar α]

/-- On each of its axes a node is placed by its margins and by its inset, and the inset is taken of
the first size along the axis of the node's flex direction and of the second across it. -/
theorem Node.placed_along (n : Node α) {direction : Direction} {axis : FlexDirection}
    (haxis : n.HasAxis (if n.owner.isSome then direction else .ltr) axis)
    (main cross width : Extent α) :
    let base := if axis.isRow = n.style.flexDirection.isRow then main else cross
    (n.placed direction main cross width).position.get axis.leading =
        n.leadingMargin axis width + n.relativePosition axis base ∧
      (n.placed direction main cross width).position.get axis.trailing =
        n.trailingMargin axis width + n.relativePosition axis base := by
  unfold placed
  dsimp only [Geometry.setPosition]
  generalize (if n.owner.isSome then direction else Direction.ltr) = direction at haxis ⊢
  have hrow := n.style.flexDirection.isRow_resolve direction
  have hcross := (n.style.flexDirection.resolve direction).isRow_cross direction
  rw [hrow] at hcross
  have hne := FlexDirection.sides_ne (a := n.style.flexDirection.resolve direction)
    (b := (n.style.flexDirection.resolve direction).cross direction) (by simp [hrow, hcross])
  have hends := FlexDirection.leading_ne_trailing
  rcases haxis with rfl | rfl
  · simp [Offsets.get_set, hrow, hne.1, hne.2, hends]
  · simp [Offsets.get_set, hcross, hends]

namespace Container

def innerAlong (c : Container α) (axis : FlexDirection) : Extent α :=
  if axis.isRow then c.innerWidth else c.innerHeight

/-- The size that an inset of `n` along `axis` is taken of in `c`: that of the other axis if one of
the two is a row and the other a column. -/
def insetBase (c : Container α) (n : Node α) (axis : FlexDirection) : Extent α :=
  if n.style.flexDirection.isRow = c.isRow then c.innerAlong axis
  else if axis.isRow then c.innerHeight else c.innerWidth

end Container

namespace Pass

variable {c : Container α} {p : Pass α} {child : NodeId} {axis : FlexDirection}

/-- In a container that is laid out in full, a child comes to stand on either of its axes at its
margin and its inset, taken of `insetBase`. So insets are taken of the size of the container on
their own axis exactly if the container and the child are both rows or both columns, or else the
container is as wide as it is high. -/
theorem placeAtStart_insets (hlayout : c.performLayout = true) (hl : p.tree.Live child)
    (ho : (p.node child).owner.isSome)
    (haxis : (p.node child).HasAxis ((p.node child).resolveDirection c.direction) axis) :
    ((p.placeAtStart c child).node child).geometry.position.get axis.leading =
        (p.node child).leadingMargin axis c.innerWidth +
          (p.node child).relativePosition axis (c.insetBase (p.node child) axis) ∧
      ((p.placeAtStart c child).node child).geometry.position.get axis.trailing =
        (p.node child).trailingMargin axis c.innerWidth +
          (p.node child).relativePosition axis (c.insetBase (p.node child) axis) ∧
      (c.insetBase (p.node child) axis = c.innerAlong axis ↔
        (p.node child).style.flexDirection.isRow = c.isRow ∨ c.innerWidth = c.innerHeight) := by
  unfold placeAtStart
  rw [if_pos hlayout, redraw, node_update_self hl]
  generalize p.node child = n at ho haxis ⊢
  have hplaced := n.placed_along (by rwa [if_pos ho]) c.innerMain c.innerCross c.innerWidth
  have hbase : (if axis.isRow = n.style.flexDirection.isRow then c.innerMain else c.innerCross) =
      c.insetBase n axis := by
    unfold Container.innerMain Container.innerCross Container.insetBase Container.innerAlong
    cases axis.isRow <;> cases n.style.flexDirection.isRow <;> cases c.isRow <;> rfl
  dsimp only at hplaced
  rw [hbase] at hplaced
  refine ⟨hplaced.1, hplaced.2, ?_⟩
  unfold Container.insetBase Container.innerAlong
  by_cases hsame : n.style.flexDirection.isRow = c.isRow
  · simp [hsame]
  · cases axis.isRow <;> simp [hsame, eq_comm]

/-- A row that is wider than it is high, around a column that is inset by a tenth. -/
def percentInset : Tree Float32 :=
  (Tree.empty Tree.gridless).after [.newNode none, .newNode none, .addChild ⟨1, 1⟩ ⟨2, 1⟩,
    .updateStyle ⟨1, 1⟩ fun s =>
      { s with flexDirection := .row, size := ⟨.points 200, .points 100⟩ },
    .updateStyle ⟨2, 1⟩ fun s => { s with position := s.position.set .left (.percent 10) }]

/-- The child is inset by a tenth of the height. -/
theorem inset_of_height_percent :
    ((percentInset.after [.calculateLayout ⟨1, 1⟩ ⟨.known 200, .known 100, .ltr⟩]).find? ⟨2, 1⟩).map
      (·.geometry.position.get .left) = some 10 := by
  decide +kernel

theorem placeAtStart_insets_percent :
    let p := start percentInset .initial
    let c := Container.ofRequest (p.node ⟨1, 1⟩) ⟨1, 1⟩ .ltr
      (Tree.rootRequest (p.node ⟨1, 1⟩) ⟨.known 200, .known 100, .ltr⟩)
    (p.node ⟨2, 1⟩).HasAxis ((p.node ⟨2, 1⟩).resolveDirection c.direction) .row ∧
    c.innerAlong .row = .known 200 ∧
    c.insetBase (p.node ⟨2, 1⟩) .row = .known 100 ∧
    ((p.placeAtStart c ⟨2, 1⟩).node ⟨2, 1⟩).geometry.position.get .left =
      (p.node ⟨2, 1⟩).leadingMargin .row c.innerWidth +
        (p.node ⟨2, 1⟩).relativePosition .row (c.insetBase (p.node ⟨2, 1⟩) .row) := by
  intro p c
  have haxis : (p.node ⟨2, 1⟩).HasAxis ((p.node ⟨2, 1⟩).resolveDirection c.direction) .row :=
    Or.inr (by decide +kernel)
  refine ⟨haxis, by decide +kernel, by decide +kernel, ?_⟩
  exact (placeAtStart_insets rfl
    (Option.isSome_iff_exists.mp (by decide +kernel)) (by decide +kernel) haxis).1

end Pass

end Flexbox
