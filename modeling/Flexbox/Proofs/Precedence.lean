import Flexbox.Proofs.AutoMargins

namespace Flexbox

variable {α : Type}

namespace Length

variable {a b c default : Length α} {ls : List (Length α)}

/-- The first of some lengths that is set, else `default`. -/
def firstSet (ls : List (Length α)) (default : Length α) : Length α :=
  (ls.find? fun l => !l.isUndefined).getD default

theorem firstSet_cons : firstSet (a :: ls) default = a.orElse (firstSet ls default) := by
  cases a <;> rfl

theorem orElse_assoc : (a.orElse b).orElse c = a.orElse (b.orElse c) := by
  cases a <;> rfl

/-- What is looked for a second time is found in the first place. -/
theorem orElse_orElse_again : (a.orElse c).orElse (b.orElse c) = a.orElse (c.orElse b) := by
  cases a <;> cases b <;> cases c <;> rfl

end Length

open Length

namespace Edges

variable (e : Edges (Length α)) (axis : FlexDirection) (logical : Edge) (side : Side)

/-- What covers both sides of an axis. -/
def shorthands : List (Length α) := [if axis.isRow then e.horizontal else e.vertical, e.all]

/-- What covers a side of an axis, the more specific first. -/
def bySpecificity : List (Length α) :=
  (if axis.isRow then [e.get logical] else []) ++ e.get side.edge :: e.shorthands axis

/-- The inset that counts on a side. -/
def insetInForce : Length α :=
  (if axis.isRow then e.cascade logical .undefined else .undefined).orElse
    (e.cascade side.edge .undefined)

/-- In a row, a side that is set without its logical edge is covered by another length. -/
structure Overtaken : Prop where
  row : axis.isRow = true
  logical_unset : e.get logical = .undefined
  side_set : e.get side.edge ≠ .undefined
  covered : firstSet (e.shorthands axis) .undefined ≠ .undefined
  differs : firstSet (e.shorthands axis) .undefined ≠ e.get side.edge

variable {e axis logical side}

theorem firstSet_row (hrow : axis.isRow = true) (default : Length α) :
    firstSet (e.bySpecificity axis logical side) default =
      (e.get logical).orElse ((e.get side.edge).orElse (firstSet (e.shorthands axis) default)) := by
  rw [bySpecificity, if_pos hrow, List.singleton_append, firstSet_cons, firstSet_cons]

theorem firstSet_column (hrow : axis.isRow = false) (default : Length α) :
    firstSet (e.bySpecificity axis logical side) default =
      (e.get side.edge).orElse (firstSet (e.shorthands axis) default) := by
  rw [bySpecificity, if_neg (by simp [hrow]), List.nil_append, firstSet_cons]

theorem cascade_logical (hrow : axis.isRow = true) (hlogical : logical.isLogical = true) :
    e.cascade logical .undefined =
      (e.get logical).orElse (firstSet (e.shorthands axis) .undefined) := by
  simp only [shorthands, hrow, if_true, firstSet_cons]
  cases logical with
  | start => exact congrArg e.start.orElse orElse_assoc
  | finish => exact congrArg e.finish.orElse orElse_assoc
  | _ => cases hlogical

variable (hside : side = axis.leading ∨ side = axis.trailing)

include hside

theorem cascade_along (default : Length α) : e.cascade side.edge default =
    (e.get side.edge).orElse (firstSet (e.shorthands axis) default) := by
  simp only [cascade_side, shorthands, firstSet_cons]
  rcases hside with rfl | rfl <;> cases axis <;> exact congrArg _ orElse_assoc

theorem sideInForce_eq [Scalar α] :
    e.sideInForce axis logical side = firstSet (e.bySpecificity axis logical side) .zero := by
  rw [sideInForce, cascade_along hside]
  cases hrow : axis.isRow with
  | false => exact (firstSet_column hrow _).symm
  | true =>
    rw [firstSet_row hrow]
    cases e.get logical <;> rfl

/-- In a row, the shorthands come before the side itself. -/
theorem insetInForce_row (hrow : axis.isRow = true) (hlogical : logical.isLogical = true) :
    e.insetInForce axis logical side = (e.get logical).orElse
      ((firstSet (e.shorthands axis) .undefined).orElse (e.get side.edge)) := by
  rw [insetInForce, if_pos hrow, cascade_logical hrow hlogical, cascade_along hside,
    orElse_orElse_again]

theorem insetInForce_column (hrow : axis.isRow = false) :
    e.insetInForce axis logical side = firstSet (e.bySpecificity axis logical side) .undefined := by
  rw [insetInForce, if_neg (by simp [hrow]), cascade_along hside, firstSet_column hrow]
  rfl

theorem insetInForce_iff (hlogical : logical.isLogical = true) :
    e.insetInForce axis logical side = firstSet (e.bySpecificity axis logical side) .undefined ↔
      ¬ e.Overtaken axis logical side := by
  cases hrow : axis.isRow with
  | false =>
    exact iff_of_true (insetInForce_column hside hrow) fun h =>
      Bool.false_ne_true (hrow.symm.trans h.row)
  | true =>
    have hmeans : e.Overtaken axis logical side ↔ e.get logical = .undefined ∧
        e.get side.edge ≠ .undefined ∧ firstSet (e.shorthands axis) .undefined ≠ .undefined ∧
        firstSet (e.shorthands axis) .undefined ≠ e.get side.edge :=
      ⟨fun ⟨_, hl, hs, hc, hd⟩ => ⟨hl, hs, hc, hd⟩, fun ⟨hl, hs, hc, hd⟩ => ⟨hrow, hl, hs, hc, hd⟩⟩
    rw [hmeans, insetInForce_row hside hrow hlogical, firstSet_row hrow]
    generalize e.get logical = l, e.get side.edge = s, firstSet (e.shorthands axis) .undefined = c
    cases l <;> cases s <;> cases c <;> simp [orElse, isUndefined]

/-- Whether there is an inset at all does not depend on the order. -/
theorem insetInForce_isUndefined (hlogical : logical.isLogical = true) :
    (e.insetInForce axis logical side).isUndefined =
      (firstSet (e.bySpecificity axis logical side) .undefined).isUndefined := by
  cases hrow : axis.isRow with
  | false => rw [insetInForce_column hside hrow]
  | true =>
    rw [insetInForce_row hside hrow hlogical, firstSet_row hrow]
    generalize e.get logical = l, e.get side.edge = s, firstSet (e.shorthands axis) .undefined = c
    cases l <;> cases s <;> cases c <;> rfl

theorem Overtaken.insetInForce_eq (h : e.Overtaken axis logical side)
    (hlogical : logical.isLogical = true) :
    e.insetInForce axis logical side = firstSet (e.shorthands axis) .undefined := by
  have hcovered := h.covered
  rw [insetInForce_row hside h.row hlogical, h.logical_unset]
  generalize firstSet (e.shorthands axis) .undefined = c at hcovered ⊢
  cases c with
  | undefined => exact absurd rfl hcovered
  | _ => rfl

end Edges

/-- Margins on either side of an axis take the first length that is set, from the logical edge of a
row to the shorthand of all edges. So do insets, unless in a row a shorthand overtakes the edge of
the side: then the shorthand counts. Whether there is an inset is the same in either order. -/
theorem Node.most_specific_unless_overtaken [Scalar α] (n : Node α) (axis : FlexDirection) :
    let margin := n.style.margin
    let inset := n.style.position
    (∀ width, n.leadingMargin axis width =
        ((firstSet (margin.bySpecificity axis .start axis.leading) .zero).resolveMargin
          width).getD 0 ∧
      n.trailingMargin axis width =
        ((firstSet (margin.bySpecificity axis .finish axis.trailing) .zero).resolveMargin
          width).getD 0) ∧
    (n.leadingInset axis = firstSet (inset.bySpecificity axis .start axis.leading) .undefined ↔
      ¬ inset.Overtaken axis .start axis.leading) ∧
    (n.trailingInset axis = firstSet (inset.bySpecificity axis .finish axis.trailing) .undefined ↔
      ¬ inset.Overtaken axis .finish axis.trailing) ∧
    (inset.Overtaken axis .start axis.leading →
      n.leadingInset axis = firstSet (inset.shorthands axis) .undefined) ∧
    (inset.Overtaken axis .finish axis.trailing →
      n.trailingInset axis = firstSet (inset.shorthands axis) .undefined) ∧
    n.hasLeadingInset axis =
      !(firstSet (inset.bySpecificity axis .start axis.leading) .undefined).isUndefined ∧
    n.hasTrailingInset axis =
      !(firstSet (inset.bySpecificity axis .finish axis.trailing) .undefined).isUndefined := by
  intro margin inset
  have hl : axis.leading = axis.leading ∨ axis.leading = axis.trailing := Or.inl rfl
  have ht : axis.trailing = axis.leading ∨ axis.trailing = axis.trailing := Or.inr rfl
  refine ⟨fun width => ⟨?_, ?_⟩, Edges.insetInForce_iff hl rfl, Edges.insetInForce_iff ht rfl,
    fun h => h.insetInForce_eq hl rfl, fun h => h.insetInForce_eq ht rfl,
    congrArg _ (Edges.insetInForce_isUndefined hl rfl),
    congrArg _ (Edges.insetInForce_isUndefined ht rfl)⟩
  · rw [← Edges.sideInForce_eq hl]
    rfl
  · rw [← Edges.sideInForce_eq ht]
    rfl

/-- A square in a row, ten from the left, and thirty by the shorthand for both sides. -/
def overlaid : Tree Float32 :=
  (Tree.empty Tree.gridless).after [.newNode none, .newNode none, .addChild ⟨1, 1⟩ ⟨2, 1⟩,
    .updateStyle ⟨1, 1⟩ fun s =>
      { s with flexDirection := .row, size := ⟨.points 100, .points 100⟩ },
    .updateStyle ⟨2, 1⟩ fun s => { s with
      size := ⟨.points 20, .points 20⟩
      position := (s.position.set .left (.points 10)).set .horizontal (.points 30) }]

theorem left_overtaken_overlaid :
    ((overlaid.after [.calculateLayout ⟨1, 1⟩ ⟨.known 100, .known 100, .ltr⟩]).find? ⟨2, 1⟩).map
      (fun n => (n.geometry.position.left,
        firstSet (n.style.position.bySpecificity .row .start .left) .undefined)) =
      some (30, .points 10) := by
  decide +kernel

theorem most_specific_unless_overtaken_overlaid :
    let n := (Pass.start overlaid .initial).node ⟨2, 1⟩
    n.style.position.Overtaken .row .start .left ∧
      n.leadingInset .row = firstSet (n.style.position.shorthands .row) .undefined := by
  intro n
  have hover : n.style.position.Overtaken .row .start .left :=
    ⟨rfl, by decide +kernel, by decide +kernel, by decide +kernel, by decide +kernel⟩
  exact ⟨hover, (n.most_specific_unless_overtaken .row).2.2.2.1 hover⟩

end Flexbox
