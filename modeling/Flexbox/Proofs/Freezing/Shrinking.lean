import Flexbox.Proofs.Freezing.Conserving

namespace Flexbox

theorem FlexItem.finalSize_shrunk {i : FlexItem ℚ} {space : Space ℚ} (hfree : space.free < 0)
    (hf : i.frozen = none) (hv : i.violation? space = none) :
    i.finalSize space =
      i.basis + (if space.shrink = 0 then 1 else space.free / space.shrink) * i.shrink := by
  refine finalSize_kept hf hv ?_
  by_cases hshrink : i.shrink = 0 <;> by_cases htotal : space.shrink = 0 <;>
    simp [flexed?, hfree, hshrink, htotal]

/-- What the size bounds take off the shrink factor of a node. -/
def Container.cutShrink (c : Container ℚ) (n : Node ℚ) : ℚ :=
  n.resolveShrink * (n.clampedBasis c.mainAxis c.ownerMain - n.geometry.flexBasis.getD 0)

namespace Pass

/-- Whatever the arithmetic, the totals of a line are those of its flexible items in order, for
shrinking with the bases outside the size bounds. Without rounding these are the factors the items
grow by, and those they shrink by less what the bounds take off. Where space is missing and no item
hits a bound, the items come to the space there is exactly if the total they are divided by is their
own. -/
theorem shrinking_fills_line_iff {p q : Pass ℚ} {c : Container ℚ} {line : Line ℚ}
    {room innerMain : Extent ℚ} {children : List NodeId} {number : Nat} {free : ℚ}
    {s : FlexState ℚ} {f : Frozen ℚ} (hline : p.collectLine c room children number = (line, q))
    (hs : s = q.flexState c innerMain { line with space := { line.space with free := free } })
    (hf : f = freeze s.items.length s.items s.space 0) :
    (∀ {β : Type} [Scalar β] {start final : Pass β} {holder : Container β} {taken : Line β}
      {space : Extent β} {listed : List NodeId} {index : Nat},
      start.collectLine holder space listed index = (taken, final) →
      let total := taken.items.foldl (Line.counted start.node) ⟨0, 0, 0⟩
      taken.space = ⟨total.free, Line.raised total.grow, Line.raised total.shrink⟩) ∧
    line.space.grow = Line.raised (s.items.map FlexItem.grow).sum ∧
    line.space.shrink = Line.raised ((s.items.map FlexItem.shrink).sum +
      (line.items.map fun x => c.cutShrink (p.node x)).sum) ∧
    (free < 0 → (∀ i ∈ s.items, i.violation? s.space = none) →
      ((f.items.map fun i => i.finalSize f.space).sum =
          (s.items.map FlexItem.basis).sum + free ↔
        (s.items.map FlexItem.shrink).sum =
          if line.space.shrink = 0 then free else line.space.shrink)) := by
  have hitems : s.items = line.items.map fun x => c.flexItem innerMain x (p.node x) := by
    rw [hs]
    exact List.map_congr_left fun x _ => collectLine_items_eq hline innerMain x
  have hspace : s.space = { line.space with free := free } := by rw [hs]; rfl
  obtain ⟨hgrow, hshrink⟩ := collectLine_totals hline
  refine ⟨collectLine_space, ?_, ?_, fun hfree hkept => ?_⟩
  · rw [hgrow, hitems, List.map_map]
    rfl
  · rw [hshrink, hitems, List.map_map, ← List.sum_map_add]
    refine congrArg (fun l : List ℚ => Line.raised l.sum) (List.map_congr_left fun x _ => ?_)
    simp only [Function.comp_apply, Container.flexItem, Container.cutShrink]
    ring
  · have hopen : ∀ i ∈ s.items, i.frozen = none := fun i hi => by
      obtain ⟨x, -, rfl⟩ := List.mem_map.mp (hitems ▸ hi)
      rfl
    rw [freeze_kept sub_zero hkept] at hf
    subst hf
    rw [List.map_congr_left fun i hi =>
        FlexItem.finalSize_shrunk (hspace ▸ hfree) (hopen i hi) (hkept i hi),
      List.sum_map_add, List.sum_map_mul_left, hspace, add_right_inj]
    by_cases htotal : line.space.shrink = 0
    · simp [htotal]
    · simp only [htotal, if_false]
      rw [div_mul_eq_mul_div, div_eq_iff htotal, mul_right_inj' hfree.ne]

/-- A row of 60 with two items of 60, the first of which has a basis of 120. -/
def clippedRow : Tree ℚ :=
  (Tree.empty .initial).after [.newNode none, .newNode none, .newNode none,
    .addChild ⟨1, 1⟩ ⟨2, 1⟩, .addChild ⟨1, 1⟩ ⟨3, 1⟩,
    .updateStyle ⟨2, 1⟩ fun s => { s with
      flexBasis := .points 120, flexShrink := .known 1, maxSize := ⟨.points 60, .undefined⟩ },
    .updateStyle ⟨3, 1⟩ fun s => { s with flexBasis := .points 60, flexShrink := .known 1 }]

def clippedLine : Line ℚ × Pass ℚ :=
  let basis := (Pass.start clippedRow .initial).basisOfChildren (fun _ _ p => p) (rowContainer 60)
  basis.2.collectLine (rowContainer 60) (.known 60) [⟨2, 1⟩, ⟨3, 1⟩] 0

def clippedFlex : FlexState ℚ := clippedLine.2.flexState (rowContainer 60) (.known 60)
  { clippedLine.1 with space := { clippedLine.1.space with free := -60 } }

def clippedEnd : Frozen ℚ := freeze clippedFlex.items.length clippedFlex.items clippedFlex.space 0

/-- The total counts the basis of 120, and each item gives off a third of its size, not half. -/
theorem clipped_basis_in_total :
    clippedLine.1.space.shrink = -180 ∧ (clippedFlex.items.map FlexItem.shrink).sum = -120 ∧
      (∀ i ∈ clippedFlex.items, i.violation? clippedFlex.space = none) ∧
      clippedEnd.items.map (fun i => i.finalSize clippedEnd.space) = [40, 40] := by
  refine ⟨?_, ?_, ?_, ?_⟩ <;> decide +kernel

theorem shrinking_fills_line_iff_clipped :
    (∀ i ∈ clippedFlex.items, i.violation? clippedFlex.space = none) ∧
    (clippedEnd.items.map fun i => i.finalSize clippedEnd.space).sum ≠
      (clippedFlex.items.map FlexItem.basis).sum + -60 := by
  have hkept : ∀ i ∈ clippedFlex.items, i.violation? clippedFlex.space = none := by decide +kernel
  have hline : clippedLine = (clippedLine.1, clippedLine.2) := Prod.mk.eta.symm
  have hfills := (shrinking_fills_line_iff hline (s := clippedFlex) rfl (f := clippedEnd) rfl).2.2.2
    (by decide +kernel) hkept
  exact ⟨hkept, fun h => absurd (hfills.mp h) (by decide +kernel)⟩

end Pass

end Flexbox
