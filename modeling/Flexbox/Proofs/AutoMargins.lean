import Flexbox.Proofs.Lockstep
import Flexbox.Proofs.Territory

namespace Flexbox

variable {α : Type}

namespace Edges

variable (e : Edges (Length α)) (axis : FlexDirection) (logical : Edge) (side : Side)

/-- What is set for a side: in a row the length of a logical edge, if it has one. -/
def ownSide : Length α :=
  if axis.isRow && !(e.get logical).isUndefined then e.get logical else e.get side.edge

/-- What counts on the side, with the shorthands that cover it. -/
def sideInForce [Scalar α] : Length α :=
  if axis.isRow && !(e.get logical).isUndefined then e.get logical else e.cascade side.edge .zero

/-- What the shorthands make of a side. -/
def covering : Length α := (e.get (side.edge.shorthand?.getD .all)).orElse e.all

/-- The edges with every side set to what the shorthands make of it. -/
def spelledOut : Edges (Length α) :=
  { e with
    left := e.left.orElse (e.covering .left)
    top := e.top.orElse (e.covering .top)
    right := e.right.orElse (e.covering .right)
    bottom := e.bottom.orElse (e.covering .bottom) }

theorem get_spelledOut :
    e.spelledOut.get side.edge = (e.get side.edge).orElse (e.covering side) := by
  cases side <;> rfl

theorem get_spelledOut_logical (h : logical.isLogical = true) :
    e.spelledOut.get logical = e.get logical := by
  cases logical <;> first | rfl | cases h

theorem cascade_side (default : Length α) :
    e.cascade side.edge default = (e.get side.edge).orElse ((e.covering side).orElse default) := by
  cases side <;> rfl

theorem covering_spelledOut : e.spelledOut.covering side = e.covering side := by
  cases side <;> rfl

variable [Scalar α]

/-- A side that is set counts as it is set. -/
theorem isAuto_ownSide : (e.ownSide axis logical side).isAuto = true ↔
    (e.sideInForce axis logical side).isAuto = true ∧
      (e.ownSide axis logical side).isUndefined = false := by
  unfold ownSide sideInForce
  split
  · cases e.get logical <;> simp_all [Length.isAuto, Length.isUndefined]
  · rw [cascade_side]
    cases e.get side.edge <;> simp [Length.isAuto, Length.isUndefined, Length.orElse]

theorem sideInForce_spelledOut (h : logical.isLogical = true) :
    e.spelledOut.sideInForce axis logical side = e.sideInForce axis logical side := by
  rw [sideInForce, sideInForce, e.get_spelledOut_logical logical h, cascade_side, cascade_side,
    get_spelledOut, covering_spelledOut]
  cases e.get side.edge <;> cases e.covering side <;> rfl

theorem isAuto_spelledOut (h : logical.isLogical = true) :
    (e.spelledOut.ownSide axis logical side).isAuto =
      (e.sideInForce axis logical side).isAuto := by
  rw [ownSide, sideInForce, e.get_spelledOut_logical logical h, get_spelledOut, cascade_side]
  cases e.get side.edge <;> cases e.covering side <;> split <;> rfl

end Edges

namespace Node

variable (n : Node α) (axis : FlexDirection)

/-- The node with its margins spelled out side by side. -/
def spelled : Node α := { n with style := { n.style with margin := n.style.margin.spelledOut } }

variable [Scalar α]

def leadingInForce : Length α := n.style.margin.sideInForce axis .start axis.leading

def trailingInForce : Length α := n.style.margin.sideInForce axis .finish axis.trailing

/-- On the axis no margin is automatic by a shorthand alone. -/
structure AutosSet : Prop where
  leading : (n.leadingInForce axis).isAuto = true → (n.leadingMarginValue axis).isUndefined = false
  trailing : (n.trailingInForce axis).isAuto = true →
    (n.trailingMarginValue axis).isUndefined = false

theorem leadingMarginValue_isAuto : (n.leadingMarginValue axis).isAuto = true ↔
    (n.leadingInForce axis).isAuto = true ∧ (n.leadingMarginValue axis).isUndefined = false :=
  n.style.margin.isAuto_ownSide axis .start axis.leading

theorem trailingMarginValue_isAuto : (n.trailingMarginValue axis).isAuto = true ↔
    (n.trailingInForce axis).isAuto = true ∧ (n.trailingMarginValue axis).isUndefined = false :=
  n.style.margin.isAuto_ownSide axis .finish axis.trailing

omit [Scalar α] in
@[simp] theorem spelled_geometry : n.spelled.geometry = n.geometry := rfl

theorem spelled_leading :
    (n.spelled.leadingMarginValue axis).isAuto = (n.leadingInForce axis).isAuto :=
  n.style.margin.isAuto_spelledOut axis .start axis.leading rfl

theorem spelled_trailing :
    (n.spelled.trailingMarginValue axis).isAuto = (n.trailingInForce axis).isAuto :=
  n.style.margin.isAuto_spelledOut axis .finish axis.trailing rfl

theorem spelled_marginFor (width : Extent α) :
    n.spelled.marginFor axis width = n.marginFor axis width := by
  have hl : n.spelled.leadingInForce axis = n.leadingInForce axis :=
    n.style.margin.sideInForce_spelledOut axis .start axis.leading rfl
  have ht : n.spelled.trailingInForce axis = n.trailingInForce axis :=
    n.style.margin.sideInForce_spelledOut axis .finish axis.trailing rfl
  change ((n.spelled.leadingInForce axis).resolveMargin width).getD 0 +
    ((n.spelled.trailingInForce axis).resolveMargin width).getD 0 = _
  rw [hl, ht]
  rfl

theorem autoCount_le_spelled : n.autoCount axis ≤ n.spelled.autoCount axis := by
  have hl := n.leadingMarginValue_isAuto axis
  have ht := n.trailingMarginValue_isAuto axis
  unfold autoCount
  rw [spelled_leading, spelled_trailing]
  grind

theorem autoCount_spelled_iff : n.autoCount axis = n.spelled.autoCount axis ↔ n.AutosSet axis := by
  have hl := n.leadingMarginValue_isAuto axis
  have ht := n.trailingMarginValue_isAuto axis
  unfold autoCount
  rw [spelled_leading, spelled_trailing]
  constructor
  · intro h
    constructor <;> grind
  · rintro ⟨hsl, hst⟩
    grind

theorem spelled_outerSize (width : Extent α) :
    n.spelled.outerSize axis width = n.outerSize axis width := by
  rw [outerSize, outerSize, spelled_marginFor]
  rfl

variable {n axis}

theorem AutosSet.leading_eq (h : n.AutosSet axis) :
    (n.spelled.leadingMarginValue axis).isAuto = (n.leadingMarginValue axis).isAuto := by
  rw [spelled_leading, Bool.eq_iff_iff, leadingMarginValue_isAuto]
  exact ⟨fun ha => ⟨ha, h.leading ha⟩, And.left⟩

theorem AutosSet.trailing_eq (h : n.AutosSet axis) :
    (n.spelled.trailingMarginValue axis).isAuto = (n.trailingMarginValue axis).isAuto := by
  rw [spelled_trailing, Bool.eq_iff_iff, trailingMarginValue_isAuto]
  exact ⟨fun ha => ⟨ha, h.trailing ha⟩, And.left⟩

end Node

namespace Container

/-- Spelled out, a line has as many automatic margins if no child had one from a shorthand. -/
theorem autoMargins_spelled [Scalar α] (c : Container α) (ns : List (Node α)) :
    c.autoMargins ns = c.autoMargins (ns.map Node.spelled) ↔
      ∀ n ∈ ns, n.style.positionType = .relative → n.AutosSet c.mainAxis := by
  have hle : c.autoMargins ns ≤ c.autoMargins (ns.map Node.spelled) ∧
      (c.autoMargins ns = c.autoMargins (ns.map Node.spelled) ↔
        ∀ n ∈ ns, n.style.positionType = .relative → n.AutosSet c.mainAxis) := by
    induction ns with
    | nil => exact ⟨Nat.le_refl _, by simp⟩
    | cons n ns ih =>
      have hn := n.autoCount_le_spelled c.mainAxis
      have hiff := n.autoCount_spelled_iff c.mainAxis
      rw [autoMargins_eq, autoMargins_eq] at ih ⊢
      simp only [List.map_cons, List.filter_cons, List.forall_mem_cons]
      cases hr : n.style.positionType with
      | absolute => simpa [hr, Node.spelled] using ih
      | relative =>
        have hr' : n.spelled.style.positionType = .relative := hr
        simp only [hr', beq_self_eq_true, if_true, List.map_cons, List.sum_cons, forall_const,
          ← hiff, ← ih.2]
        omega
  exact hle.2

end Container

namespace Pass

variable [Scalar α] {c : Container α} {x : NodeId} {p q : Pass α}

theorem Works.node_eq {visit : Visitor α} {y : NodeId} (h : Works visit y (· = .report) p q) :
    q.node = p.node := by
  induction h with
  | refl => rfl
  | tail _ hdoes ih =>
    obtain ⟨_, rfl, hdoes⟩ := hdoes
    rw [← ih]
    cases hdoes <;> rfl

theorem node_ascentAndDescent (p : Pass α) (width : Extent α) (x : NodeId) :
    (p.ascentAndDescent width x).2.node = p.node := by
  have hw : Works (fun _ _ p => p) x (· = .report) p (p.ascentAndDescent width x).2 :=
    baselineWithin_works _ rfl
  exact hw.node_eq

omit [Scalar α] in
theorem shiftBy_spelled (hl : p.tree.Live x) (side : Side) (f : α → α) :
    (((p.update x Node.spelled).shiftBy x side f).node x).geometry =
      ((p.shiftBy x side f).node x).geometry := by
  unfold shiftBy updateGeometry
  rw [node_update_self (Tree.live_update.mpr hl), node_update_self hl, node_update_self hl]
  rfl

/-- An item with no automatic margin from a shorthand alone takes up as much of the main axis with
its margins spelled out, and stands where it stood. -/
theorem placeItemMain_spelled {s : JustifyState α} (hl : s.pass.tree.Live x) (plan : JustifyPlan α)
    (h : (s.pass.node x).AutosSet c.mainAxis) :
    let spelled := placeItemMain c plan { s with pass := s.pass.update x Node.spelled } x
    spelled.mainSize = (placeItemMain c plan s x).mainSize ∧
      (spelled.pass.node x).geometry = ((placeItemMain c plan s x).pass.node x).geometry := by
  have hn := node_update_self hl Node.spelled
  dsimp only
  unfold placeItemMain
  simp only [hn, h.leading_eq, h.trailing_eq, Node.spelled_marginFor, Node.spelled_outerSize]
  cases plan.skipsFlex <;> cases plan.onBaseline <;> cases c.performLayout <;>
    simp [shiftBy_spelled hl, hn, node_ascentAndDescent]

/-- The same across the main axis, for an item that is not stretched. -/
theorem placeItemCross_spelled (hl : p.tree.Live x) (visit : Visitor α) (plan : CrossPlan α)
    (h : (p.node x).AutosSet c.crossAxis)
    (hrigid : c.stretchesChild (p.node c.id) (p.node x) = false) :
    (((p.update x Node.spelled).placeItemCross visit c plan x).node x).geometry =
      ((p.placeItemCross visit c plan x).node x).geometry := by
  have hn := node_update_self hl Node.spelled
  have halign : ((p.update x Node.spelled).node c.id).alignOf (p.node x).spelled =
      (p.node c.id).alignOf (p.node x) := by
    rw [node_update hl]
    split
    · rename_i hid
      rw [hid]
      rfl
    · rfl
  have hsize : (p.node x).spelled.hasDefiniteSize c.crossAxis c.innerCross =
      (p.node x).hasDefiniteSize c.crossAxis c.innerCross := rfl
  unfold placeItemCross
  simp only [hn, h.leading_eq, h.trailing_eq, halign, hsize, Node.spelled_outerSize,
    stretches_eq, hrigid, Bool.false_eq_true, if_false]
  exact shiftBy_spelled hl _ _

end Pass

/-- A margin takes up free space where it is automatic by its own edge. One that is automatic by a
shorthand is measured as such and takes up none: a line counts as many automatic margins as with
every side spelled out when, and only when, none of its children has such a margin. Along an axis
without such margins a child takes up the same space as spelled out, and stands at the same
place. -/
theorem auto_margin_absorbs_iff_set [Scalar α] :
    (∀ (n : Node α) (axis : FlexDirection),
      ((n.leadingMarginValue axis).isAuto = true ↔ (n.leadingInForce axis).isAuto = true ∧
        (n.leadingMarginValue axis).isUndefined = false) ∧
      ((n.trailingMarginValue axis).isAuto = true ↔ (n.trailingInForce axis).isAuto = true ∧
        (n.trailingMarginValue axis).isUndefined = false) ∧
      (∀ width, n.leadingMargin axis width = ((n.leadingInForce axis).resolveMargin width).getD 0 ∧
        n.trailingMargin axis width = ((n.trailingInForce axis).resolveMargin width).getD 0) ∧
      (n.spelled.leadingMarginValue axis).isAuto = (n.leadingInForce axis).isAuto ∧
      (n.spelled.trailingMarginValue axis).isAuto = (n.trailingInForce axis).isAuto ∧
      ∀ width, n.spelled.marginFor axis width = n.marginFor axis width) ∧
    (∀ (c : Container α) (ns : List (Node α)),
      c.autoMargins ns = c.autoMargins (ns.map Node.spelled) ↔
        ∀ n ∈ ns, n.style.positionType = .relative → n.AutosSet c.mainAxis) ∧
    (∀ (c : Container α) (plan : JustifyPlan α) (s : JustifyState α) (x : NodeId),
      s.pass.tree.Live x → (s.pass.node x).AutosSet c.mainAxis →
        let spelled := Pass.placeItemMain c plan { s with pass := s.pass.update x Node.spelled } x
        spelled.mainSize = (Pass.placeItemMain c plan s x).mainSize ∧
          (spelled.pass.node x).geometry = ((Pass.placeItemMain c plan s x).pass.node x).geometry) ∧
    ∀ (visit : Visitor α) (c : Container α) (plan : CrossPlan α) (p : Pass α) (x : NodeId),
      p.tree.Live x → (p.node x).AutosSet c.crossAxis →
        c.stretchesChild (p.node c.id) (p.node x) = false →
        (((p.update x Node.spelled).placeItemCross visit c plan x).node x).geometry =
          ((p.placeItemCross visit c plan x).node x).geometry := by
  refine ⟨fun n axis => ⟨n.leadingMarginValue_isAuto axis, n.trailingMarginValue_isAuto axis,
    fun _ => ⟨rfl, rfl⟩, n.spelled_leading axis, n.spelled_trailing axis,
    n.spelled_marginFor axis⟩, Container.autoMargins_spelled, ?_, ?_⟩
  · intro c plan s x hl hset
    exact Pass.placeItemMain_spelled hl plan hset
  · intro visit c plan p x hl hset hrigid
    exact Pass.placeItemCross_spelled hl visit plan hset hrigid

/-- A square in the middle of a larger one, if its margins take up what is left. -/
def cushioned (margin : Edges (Length Float32)) : Tree Float32 :=
  (Tree.empty Tree.gridless).after [.newNode none, .newNode none, .addChild ⟨1, 1⟩ ⟨2, 1⟩,
    .updateStyle ⟨1, 1⟩ fun s =>
      { s with flexDirection := .row, size := ⟨.points 100, .points 100⟩ },
    .updateStyle ⟨2, 1⟩ fun s => { s with margin := margin, size := ⟨.points 20, .points 20⟩ }]

def noMargin : Edges (Length Float32) := (Style.initial : Style Float32).margin

def cushionedPlace (margin : Edges (Length Float32)) : Option (Float32 × Float32) :=
  (((cushioned margin).after [.calculateLayout ⟨1, 1⟩ ⟨.known 100, .known 100, .ltr⟩]).find?
    ⟨2, 1⟩).map fun n => (n.geometry.position.left, n.geometry.position.top)

theorem shorthand_auto_absorbs_nothing :
    cushionedPlace (noMargin.set .all .auto) = some (0, 0) ∧
      cushionedPlace (noMargin.set .all .auto).spelledOut = some (40, 40) := by
  decide +kernel

/-- Automatic on the left, and five wide on the other sides by the shorthand. -/
def cushion : JustifyState Float32 :=
  ⟨0, 0, 0, 0, .start (cushioned ((noMargin.set .all (.points 5)).set .left .auto)) .initial⟩

def cushionPlan : JustifyPlan Float32 := ⟨.known 100, ⟨0, 0⟩, 75, 0, false, false⟩

theorem auto_margin_absorbs_iff_set_left :
    let c := Container.ofRequest (cushion.pass.node ⟨1, 1⟩) ⟨1, 1⟩ .ltr
      (Tree.rootRequest (cushion.pass.node ⟨1, 1⟩) ⟨.known 100, .known 100, .ltr⟩)
    let spelled := Pass.placeItemMain c cushionPlan
      { cushion with pass := cushion.pass.update ⟨2, 1⟩ Node.spelled } ⟨2, 1⟩
    ((cushion.pass.node ⟨2, 1⟩).leadingInForce c.mainAxis).isAuto = true ∧
    (spelled.pass.node ⟨2, 1⟩).geometry.position.left = 75 ∧
    spelled.mainSize = (Pass.placeItemMain c cushionPlan cushion ⟨2, 1⟩).mainSize ∧
      (spelled.pass.node ⟨2, 1⟩).geometry =
        ((Pass.placeItemMain c cushionPlan cushion ⟨2, 1⟩).pass.node ⟨2, 1⟩).geometry := by
  intro c spelled
  have hset : (cushion.pass.node ⟨2, 1⟩).AutosSet c.mainAxis :=
    ⟨fun _ => by decide +kernel, fun h => absurd h (by decide +kernel)⟩
  refine ⟨by decide +kernel, by decide +kernel, ?_⟩
  exact auto_margin_absorbs_iff_set.2.2.1 c cushionPlan cushion ⟨2, 1⟩
    (Option.isSome_iff_exists.mp (by decide +kernel)) hset

end Flexbox
