import Flexbox.Proofs.Exact
import Flexbox.Proofs.Exactness

namespace Flexbox

variable {α : Type} [Scalar α]

theorem Node.exactSize_unbounded {n : Node ℚ} {r : Request ℚ} {d : Dimension} {a : ℚ}
    (hmin : (n.style.minSize.get d).isUndefined) (hmax : (n.style.maxSize.get d).isUndefined)
    (ho : (r.offer d).size = .known a) (width : Extent ℚ) :
    n.exactSize r width d =
      max (a - n.marginFor d.axis width) (n.frameFor d.axis r.ownerWidth) := by
  have hknown : (Extent.known a - .known (n.marginFor d.axis width) : Extent ℚ) =
      .known (a - n.marginFor d.axis width) := rfl
  have hd : d.axis.dimension = d := by cases d <;> rfl
  simp [exactSize, bound, clamp, ho, hknown, hd, Length.resolve_of_isUndefined hmin,
    Length.resolve_of_isUndefined hmax, Extent.holds, Extent.max, Extent.getD]

namespace Container

variable (c : Container α) (n : Node α)

/-- The margins that a stretched child is offered along with its size on the main axis. -/
def offeredMargin : α := n.marginFor (if c.isRow then c.mainAxis else c.crossAxis) c.innerWidth

def restretchRequest (line : α) : Request α :=
  let main : Offer α := ⟨.of (n.measuredSize c.mainAxis + c.offeredMargin n), .exactly⟩
  c.request c.direction main ⟨.of line, .exactly⟩ true

def restretches (line : α) : Bool :=
  let width := if c.isRow then n.measuredSize c.mainAxis + c.offeredMargin n else line
  let height := if c.isRow then line else n.measuredSize c.mainAxis + c.offeredMargin n
  !n.hasDefiniteSize c.crossAxis c.innerCross &&
    !((Extent.of width).near (.of (n.geometry.measuredSize .width)) &&
      (Extent.of height).near (.of (n.geometry.measuredSize .height)))

/-- The margins that it takes off. Those of a measured leaf are for the width it is offered. -/
def takenMargin (line : α) : α :=
  n.marginFor c.mainAxis.dimension.axis
    (if n.measure.isSome then (c.restretchRequest n line).width.size else c.innerWidth)

end Container

namespace Pass

variable {p : Pass α} {id : NodeId} {n : Node α} {r : Request α}
  {d : Dimension} {a : α}

theorem visit_offered (hs : p.tree.Sound) (hg : p.tree.Grounded id) (hn : p.tree.find? id = some n)
    (hnew : (n.refreshed p.generation r.ownerDirection).remembered? r = none) (fuel : Nat)
    (h : r.offer d = ⟨.known a, .exactly⟩) :
    ∃ m, (visit (fuel + 1) id r p).2.tree.find? id = some m ∧
      m.geometry.measured.get d =
        .of (n.exactSize r (if n.measure.isSome then r.width.size else r.ownerWidth) d) := by
  rw [visit_of_forgotten hn hnew]
  have href := refresh_moves (S := Set.univ) (p := p) (Set.mem_univ id) r.ownerDirection
  obtain ⟨depth, hd⟩ := hg
  have hfind : (p.refresh id r.ownerDirection).tree.find? id =
      some (n.refreshed p.generation r.ownerDirection) := by
    rw [find?_refresh hn, if_pos rfl]
  have hkin := n.refreshed_kin p.generation r.ownerDirection
  obtain ⟨m, hm, hsize⟩ := layNode_offered
    (p := (p.refresh id r.ownerDirection).record ⟨id, r, .computed⟩) (href.sound hs)
    ⟨depth, by rw [← href.unfold hs ⟨n, hn⟩] at hd; exact hd⟩ hfind fuel h
  rw [compute_finish_eq rfl ⟨m, hm⟩]
  generalize Pass.layNode _ id r _ = q at hm ⊢
  refine ⟨m.computed r q.generation, ?_, ?_⟩
  · change (Tree.update _ id _).find? id = _
    rw [Tree.find?_update_self, hm]
    rfl
  · rw [Node.computed_eq]
    refine hsize.trans ?_
    rw [hkin.exactSize, show (n.refreshed _ _).measure = n.measure by rw [hkin]]

theorem restretch_eq (v : Visitor α) (c : Container α) (line : α) (id : NodeId) (n : Node α)
    (p : Pass α) : p.restretch v c line id n =
      if c.restretches n line then v id (c.restretchRequest n line) p else p := by
  unfold restretch Container.restretches Container.restretchRequest Container.request
    Container.offeredMargin Container.isRow Node.measuredSize
  cases hrow : c.mainAxis <;> rfl

/-- A child that is laid out anew with its line comes to the size it had along the main axis, and
the margins it is offered, less those it takes off. So, if it is more than padding and border, it
keeps that size exactly if these margins are the same. -/
theorem restretched_main_size {p : Pass ℚ} {n : Node ℚ} {c : Container ℚ} {e : LineExtent ℚ}
    (hs : p.tree.Sound) (hg : p.tree.Grounded id) (hn : p.tree.find? id = some n)
    (hflow : n.isInFlow = true) (halign : (p.node c.id).alignOf n = .stretch)
    (hmin : (n.style.minSize.get c.mainAxis.dimension).isUndefined)
    (hmax : (n.style.maxSize.get c.mainAxis.dimension).isUndefined)
    (hgo : c.restretches n e.height = true)
    (hnew : (n.refreshed p.generation c.direction).remembered? (c.restretchRequest n e.height) =
      none) (lead : ℚ) (fuel : Nat) :
    ∃ m, (p.alignInLine (fun x r p => (visit (fuel + 1) x r p).2) c lead e id).tree.find? id =
        some m ∧
      m.measuredSize c.mainAxis = max
        (n.measuredSize c.mainAxis + c.offeredMargin n - c.takenMargin n e.height)
        (n.frameFor c.mainAxis.dimension.axis c.innerWidth) ∧
      (n.frameFor c.mainAxis.dimension.axis c.innerWidth < n.measuredSize c.mainAxis →
        (m.measuredSize c.mainAxis = n.measuredSize c.mainAxis ↔
          c.takenMargin n e.height = c.offeredMargin n)) := by
  have hrefresh : c.direction = (c.restretchRequest n e.height).ownerDirection := rfl
  have howner : (c.restretchRequest n e.height).ownerWidth = c.innerWidth := rfl
  have hoffer : (c.restretchRequest n e.height).offer c.mainAxis.dimension =
      ⟨.known (n.measuredSize c.mainAxis + c.offeredMargin n), .exactly⟩ := by
    unfold Container.restretchRequest Container.request Container.isRow
    cases c.mainAxis <;> simp [FlexDirection.isRow, FlexDirection.dimension, Request.offer]
  have hstretch : p.alignInLine (fun x r p => (visit (fuel + 1) x r p).2) c lead e id =
      (visit (fuel + 1) id (c.restretchRequest n e.height) (p.setPosition id c.crossAxis.leading
        (lead + n.leadingMargin c.crossAxis c.innerWidth))).2 := by
    unfold alignInLine
    simp only [node_of_find? hn, hflow, halign, restretch_eq, hgo, if_true, Bool.not_true,
      Bool.false_eq_true, if_false]
  rw [hstretch]
  generalize hr : c.restretchRequest n e.height = r at hrefresh howner hoffer hnew ⊢
  generalize lead + n.leadingMargin c.crossAxis c.innerWidth = place
  have hmoves : Moves Set.univ p (p.setPosition id c.crossAxis.leading place) :=
    setPosition_moves (Set.mem_univ id) _ _
  have hplaced : (p.setPosition id c.crossAxis.leading place).tree.find? id =
      some { n with geometry := n.geometry.setPosition c.crossAxis.leading place } := by
    rw [setPosition, updateGeometry, Pass.update, Tree.find?_update_self, hn]
    rfl
  have hforgot : (Node.refreshed { n with
      geometry := n.geometry.setPosition c.crossAxis.leading place } p.generation
        r.ownerDirection).remembered? r = none := by
    rw [← hnew, hrefresh]
    by_cases hout : n.isOutdated p.generation r.ownerDirection = true
    · rw [Node.refreshed_of_outdated hout, Node.refreshed_of_outdated (by exact hout)]
      rfl
    · rw [Node.refreshed_of_not_outdated hout, Node.refreshed_of_not_outdated (by exact hout)]
      rfl
  obtain ⟨m, hm, hsize⟩ := visit_offered (hmoves.sound hs) (hmoves.grounded hs hg) hplaced
    hforgot fuel hoffer
  have hmain : m.measuredSize c.mainAxis = max
      (n.measuredSize c.mainAxis + c.offeredMargin n - c.takenMargin n e.height)
      (n.frameFor c.mainAxis.dimension.axis c.innerWidth) := by
    have hexact := n.exactSize_unbounded hmin hmax (congrArg Offer.size hoffer)
      (if n.measure.isSome then r.width.size else r.ownerWidth)
    rw [Node.measuredSize, Geometry.measuredSize, hsize, Exact.of_eq, Container.takenMargin, hr,
      ← howner]
    exact hexact
  refine ⟨m, hm, hmain, fun hframe => ?_⟩
  rw [hmain]
  constructor
  · intro hsame
    rcases max_choice (n.measuredSize c.mainAxis + c.offeredMargin n - c.takenMargin n e.height)
      (n.frameFor c.mainAxis.dimension.axis c.innerWidth) with hleft | hright
    · linarith [hleft.symm.trans hsame]
    · exact absurd (hright.symm.trans hsame) hframe.ne
  · intro hsame
    rw [hsame, add_sub_cancel_right, max_eq_left hframe.le]

end Pass

namespace Tree

/-- Two children of 60 in a column of 100, the first one with a margin on its left. -/
def marginedColumn (lines : Wrap) : Tree ℚ :=
  (Tree.empty ({ (Config.initial : Config ℚ) with scale := 0 } : Config ℚ)).after [.newNode none,
    .newNode none, .newNode none, .addChild ⟨1, 1⟩ ⟨2, 1⟩, .addChild ⟨1, 1⟩ ⟨3, 1⟩,
    .updateStyle ⟨1, 1⟩ fun s => { s with
      flexWrap := lines, size := ⟨.points 100, .points 100⟩ },
    .updateStyle ⟨2, 1⟩ fun s => { s with
      size := ⟨.auto, .points 60⟩, margin := { s.margin with left := .points 10 } },
    .updateStyle ⟨3, 1⟩ fun s => { s with size := ⟨.auto, .points 60⟩ }]

def marginedLayout (lines : Wrap) : Tree ℚ :=
  (marginedColumn lines).after [.calculateLayout ⟨1, 1⟩ ⟨.known 100, .known 100, .ltr⟩]

/-- On a line of its own the first child grows by the margin on its left. -/
theorem stretched_line_lengthens_margined :
    ((marginedLayout .noWrap).find? ⟨2, 1⟩).map (·.geometry.size.height) = some (.known 60) ∧
      ((marginedLayout .wrap).find? ⟨2, 1⟩).map (·.geometry.size.height) = some (.known 70) := by
  constructor <;> decide +kernel

theorem marginedLayout_sound : (marginedLayout .noWrap).Sound :=
  Reachable.sound (Reachable.call (t := marginedColumn .noWrap)
    (Reachable.after (.empty rfl) (by simp [Call.Hookless, Call.Returns]))
    (.calculateLayout ⟨1, 1⟩ ⟨.known 100, .known 100, .ltr⟩) trivial
    fun _ => ⟨2, by decide +kernel⟩)

theorem restretched_main_size_margined :
    let p := Pass.start (marginedLayout .noWrap) .initial
    let c := Container.ofRequest (p.node ⟨1, 1⟩) ⟨1, 1⟩ .ltr
      (rootRequest (p.node ⟨1, 1⟩) ⟨.known 100, .known 100, .ltr⟩)
    p.tree.Sound ∧ c.restretches (p.node ⟨2, 1⟩) 10 = true ∧
      (p.node ⟨2, 1⟩).measuredSize c.mainAxis = 60 ∧ c.offeredMargin (p.node ⟨2, 1⟩) = 10 ∧
      ∃ m, (p.alignInLine (fun x r p => (Pass.visit 1 x r p).2) c 0 ⟨10, 0, 0⟩ ⟨2, 1⟩).tree.find?
        ⟨2, 1⟩ = some m ∧ m.measuredSize c.mainAxis = 70 := by
  intro p c
  have hs : p.tree.Sound := marginedLayout_sound
  have hg : p.tree.Grounded ⟨2, 1⟩ := ⟨1, by decide +kernel⟩
  have hgo : c.restretches (p.node ⟨2, 1⟩) 10 = true := by decide +kernel
  have hmain : (p.node ⟨2, 1⟩).measuredSize c.mainAxis = 60 := by decide +kernel
  have hoffered : c.offeredMargin (p.node ⟨2, 1⟩) = 10 := by decide +kernel
  obtain ⟨m, hm, hsize, -⟩ := Pass.restretched_main_size (c := c) (e := ⟨10, 0, 0⟩) hs hg
    (Pass.node_eq hg.live) (by decide +kernel) (by decide +kernel) (by decide +kernel)
    (by decide +kernel) hgo (Option.isNone_iff_eq_none.mp (by decide +kernel)) 0 0
  refine ⟨hs, hgo, hmain, hoffered, m, hm, ?_⟩
  rw [hsize, hmain, hoffered, show c.takenMargin (p.node ⟨2, 1⟩) 10 = 0 by decide +kernel,
    show (p.node ⟨2, 1⟩).frameFor c.mainAxis.dimension.axis c.innerWidth = 0 by decide +kernel]
  norm_num

end Tree

end Flexbox
