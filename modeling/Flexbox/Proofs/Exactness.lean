import Flexbox.Proofs.Sizing.Containers

namespace Flexbox

variable {α : Type} [Scalar α]

/-- The size of the owner on the axis of a dimension. -/
def Request.owner {α : Type} (r : Request α) : Dimension → Extent α
  | .width => r.ownerWidth
  | .height => r.ownerHeight

namespace Node

variable {n m : Node α} {r : Request α} {d : Dimension}

/-- What is offered less the margins, which are resolved against `width`, within the bounds. -/
def exactSize (n : Node α) (r : Request α) (width : Extent α) (d : Dimension) : α :=
  n.bound d.axis ((r.offer d).size - Extent.of (n.marginFor d.axis width)) (r.owner d) r.ownerWidth

theorem Kin.exactSize (h : Kin n m) (width : Extent α) :
    m.exactSize r width d = n.exactSize r width d := by
  rw [h]
  rfl

theorem measuredBy_exact (measure : Measure α) (h : (r.offer d).mode = .exactly) :
    (n.measuredBy measure r).get d = .of (n.exactSize r r.width.size d) := by
  have hexact : ((r.offer d).mode == .exactly) = true := beq_iff_eq.mpr h
  cases d <;> exact congrArg (fun size => Extent.of (n.bound _ size _ _)) (if_pos hexact)

theorem emptySize_exact (h : (r.offer d).mode = .exactly) :
    (n.emptySize r).get d = n.exactSize r r.ownerWidth d := by
  have hexact : ((r.offer d).mode == .exactly) = true := beq_iff_eq.mpr h
  cases d <;> exact congrArg (fun size => n.bound _ size _ _) (if_pos hexact)

theorem settledSize_exact {a : α} (h : r.offer d = ⟨.known a, .exactly⟩) :
    (n.settledSize r).get d = n.exactSize r r.ownerWidth d := by
  have hknown : ¬ ((r.offer d).size.isUndefined || ((r.offer d).mode == .atMost &&
      (r.offer d).size.holds fun x => x < 0)) = true := by
    rw [h]
    simp [Extent.isUndefined, Extent.isDefined]
  cases d <;> exact congrArg (fun size => n.bound _ size _ _) (if_neg hknown)

end Node

namespace Container

variable {n : Node α} {r : Request α} {d : Dimension}

/-- Sizes along the axes of a container, by width and height. -/
def turned (c : Container α) (sizes : α × α) : Size (Extent α) :=
  if c.isRow then ⟨.of sizes.1, .of sizes.2⟩ else ⟨.of sizes.2, .of sizes.1⟩

theorem finalSizes_exact (m k : Node α) (x : NodeId) (direction : Direction) (totalBasis : α)
    (innerMain : Extent α) (maxMain totalCross : α) (h : (r.offer d).mode = .exactly) :
    ((ofRequest m x direction r).turned ((ofRequest m x direction r).finalSizes n
      ((ofRequest m x direction r).linesPlan k totalBasis) r innerMain maxMain totalCross)).get d =
        .of (n.exactSize r r.ownerWidth d) := by
  have hup := ofRequest_upright m x direction r
  have hserves := ofRequest_serves m x direction r
  have hheight : (ofRequest m x direction r).ownerHeight = r.ownerHeight := rfl
  generalize ofRequest m x direction r = c at hup hserves hheight ⊢
  unfold Upright at hup
  unfold turned finalSizes isRow
  cases hrow : c.mainAxis.isRow <;> rw [hrow] at hup <;> cases d
  all_goals
    simp_all [Size.get, linesPlan, mainMode, crossMode, isRow, finalSize, Request.offer,
      hserves.widthMode, hserves.heightMode, hserves.ownerWidth, ownerMain, ownerCross,
      Node.exactSize, Request.owner, Dimension.axis]

end Container

namespace Pass

variable {p q : Pass α} {id : NodeId} {n : Node α} {v : Visitor α}
  {r : Request α} {d : Dimension} {a : α}

theorem layLinesAndSize_measured {c : Container α} (hv : Discreet v) (h : Nested p c.id)
    (plan : LinesPlan α) (r : Request α) :
    ∃ m innerMain maxMain totalCross, Node.Kin (p.node c.id) m ∧
      ((p.layLinesAndSize v c plan r).node c.id).geometry.measured =
        c.turned (c.finalSizes m plan r innerMain maxMain totalCross) := by
  have hlines := (Moves.conduct Set.univ).labors hv.moves h.toHeld (layLines_labors plan)
  unfold layLinesAndSize
  dsimp only
  generalize layLines v c plan _ _ _ = s at hlines ⊢
  have hspread := hlines.trans ((Moves.conduct Set.univ).labors hv.moves (hlines.held h.toHeld)
    (spreadLines_works plan.leadingFrameCross).about.labors_about)
  generalize spreadLines v c plan.leadingFrameCross s = q at hspread ⊢
  obtain ⟨m, hm, hkin⟩ := hspread.kin h.sound (node_eq h.live)
  refine ⟨m, s.innerMain, s.maxMain, s.totalCross, hkin, ?_⟩
  rw [node_of_find? hm]
  generalize c.finalSizes m plan r s.innerMain s.maxMain s.totalCross = sizes
  have hset : (if c.isRow then q.setMeasured c.id sizes.1 sizes.2
      else q.setMeasured c.id sizes.2 sizes.1) =
      q.updateGeometry c.id fun g => { g with measured := c.turned sizes } := by
    unfold Container.turned
    split <;> rfl
  have hmeasured : ((q.updateGeometry c.id fun g => { g with measured := c.turned sizes }).node
      c.id).geometry.measured = c.turned sizes := by
    simp [node, updateGeometry, Pass.update, Tree.find?_update_self, hm]
  have hu := hspread.trans (updateGeometry_moves (Set.mem_univ c.id)
    fun g => { g with measured := c.turned sizes })
  rw [hset]
  generalize q.updateGeometry c.id _ = u at hmeasured hu ⊢
  split
  · have hn := h.moves hu
    have hrest := hn.works hv (hn.labors hv.moves (placeRest_labors (P := (Chore.isNote · = false))
      plan.mainMode sizes.2 (fun _ => rfl) fun _ _ => rfl)) fun _ ht => ⟨ht.2, Or.inl ⟨rfl, ht.1⟩⟩
    obtain ⟨j, hj⟩ := hrest.untouched hn.sound (by simp) (node_eq hn.live)
    rw [node, hj]
    exact hmeasured
  · exact hmeasured

theorem layContainer_exact (hv : Discreet v) (hs : p.tree.Sound) (hg : p.tree.Grounded id)
    (hn : p.tree.find? id = some n) (direction : Direction) (he : (r.offer d).mode = .exactly) :
    ((p.layContainer v id direction r).node id).geometry.measured.get d =
      .of (n.exactSize r r.ownerWidth d) := by
  have hown := enter_moves hg.live
  have hnest := Nested.enter hs hg
  rw [layContainer_eq]
  dsimp only
  generalize p.enter id = q at hown hnest ⊢
  have hbasis := hnest.does hv.moves
    (basisOfChildren_works (Container.ofRequest (q.node id) id direction r))
  generalize q.basisOfChildren v (Container.ofRequest (q.node id) id direction r) = basis
    at hbasis ⊢
  obtain ⟨m, hm, hkin⟩ := (hown.trans hbasis).kin hs hn
  obtain ⟨k, innerMain, maxMain, totalCross, hkin', hsize⟩ := layLinesAndSize_measured
    (c := Container.ofRequest (q.node id) id direction r) hv (hnest.moves hbasis)
    ((Container.ofRequest (q.node id) id direction r).linesPlan (q.node id) basis.1) r
  rw [show basis.2.node _ = m by rw [node]; exact congrArg (Option.getD · _) hm] at hkin'
  refine (congrArg (Size.get · d) hsize).trans ?_
  rw [Container.finalSizes_exact _ _ _ _ _ _ _ _ he, (hkin.trans hkin').exactSize]

theorem layNode_exact (hv : Discreet v) (hs : p.tree.Sound) (hg : p.tree.Grounded id)
    (hn : p.tree.find? id = some n) (hmeasure : n.measure = none)
    (ho : r.offer d = ⟨.known a, .exactly⟩) :
    ((p.layNode v id r).node id).geometry.measured.get d = .of (n.exactSize r r.ownerWidth d) := by
  have he : (r.offer d).mode = .exactly := by rw [ho]
  have hedges := edged_moves (p := p) (Set.mem_univ id) r
  obtain ⟨m, hm, hkin⟩ := hedges.kin hs hn
  rw [layNode_eq]
  generalize p.edged id r = q at hedges hm ⊢
  have hsize : ∀ size : Size α, ((q.setMeasured id size.width size.height).node
      id).geometry.measured.get d = .of (size.get d) := fun size => by
    simp only [node, setMeasured, updateGeometry, Pass.update, Tree.find?_update_self, hm,
      Option.map_some, Option.getD_some]
    cases d <;> rfl
  unfold layInside
  rw [node_of_find? hm, show m.measure = none by rw [hkin]; exact hmeasure]
  dsimp only
  rw [← hkin.exactSize]
  split
  · rw [hsize, Node.emptySize_exact he]
  split
  · rw [hsize, Node.settledSize_exact ho]
  · exact layContainer_exact hv (hedges.sound hs) (hedges.grounded hs hg) hm _ he

theorem layNode_offered (hs : p.tree.Sound) (hg : p.tree.Grounded id)
    (hn : p.tree.find? id = some n) (fuel : Nat) (h : r.offer d = ⟨.known a, .exactly⟩) :
    ∃ m, (p.layNode (fun x r p => (visit fuel x r p).2) id r).tree.find? id = some m ∧
      m.geometry.measured.get d =
        .of (n.exactSize r (if n.measure.isSome then r.width.size else r.ownerWidth) d) := by
  have hv := visit_discreet (α := α) fuel
  generalize (fun x r p => (visit fuel x r p).2 : Visitor α) = v at hv ⊢
  have he : (r.offer d).mode = .exactly := by rw [h]
  cases hmeasure : n.measure with
  | some measure =>
    obtain ⟨m, hm, -, hsize⟩ := layNode_leaf v hn hmeasure
    exact ⟨m, hm, by rw [hsize]; exact Node.measuredBy_exact measure he⟩
  | none =>
    obtain ⟨m, hm⟩ := (layNode_moves hv.moves r (Ready.univ hs ⟨n, hn⟩).admitted).live hs ⟨n, hn⟩
    refine ⟨m, hm, ?_⟩
    rw [show m = (p.layNode v id r).node id by rw [node, hm]; rfl]
    exact layNode_exact hv hs hg hn hmeasure h

/-- On an axis where a size is offered exactly, a node is laid out to that size less its margins,
within its bounds. It does not count what kind of node it is, which children it has and what its
measure function says; only the margins of a measured leaf are those for the width it is offered. -/
theorem exact_offer_decides (hs : p.tree.Sound) (hg : p.tree.Grounded id)
    (hn : p.tree.find? id = some n) (fuel : Nat) {a : α} (h : r.offer d = ⟨.known a, .exactly⟩) :
    ∃ m, (p.layNode (fun x r p => (visit fuel x r p).2) id r).tree.find? id = some m ∧
      m.geometry.measured.get d = .of (n.bound d.axis (.known a - Extent.of (n.marginFor d.axis
        (if n.measure.isSome then r.width.size else r.ownerWidth))) (r.owner d) r.ownerWidth) := by
  obtain ⟨m, hm, hsize⟩ := layNode_offered hs hg hn fuel h
  refine ⟨m, hm, ?_⟩
  rw [hsize, Node.exactSize, h]

end Pass

namespace Tree

/-- A root of 200, with a plain child of 100 and a measured one, each with a margin of a tenth. -/
def indented : Tree Float32 :=
  (Tree.empty gridless).after [.newNode none, .newNode none, .newNode none,
    .addChild ⟨1, 1⟩ ⟨2, 1⟩, .addChild ⟨1, 1⟩ ⟨3, 1⟩,
    .setMeasure ⟨3, 1⟩ ⟨none, fun _ _ => ⟨10, 10⟩⟩,
    .updateStyle ⟨1, 1⟩ fun s => { s with size := ⟨.points 200, .points 200⟩ },
    .updateStyle ⟨2, 1⟩ fun s => { s with
      size := ⟨.points 100, .points 20⟩, margin := { s.margin with left := .percent 10 } },
    .updateStyle ⟨3, 1⟩ fun s => { s with
      size := ⟨.points 100, .points 20⟩, margin := { s.margin with left := .percent 10 } }]

theorem indented_reachable : indented.Reachable :=
  Reachable.after (.empty rfl) (by simp [Call.Hookless, Call.Returns])

/-- Both children are offered their width and their margin, 120 in all. The measured one takes off
a tenth of that instead of a tenth of the root. -/
theorem measured_leaf_widens_indented :
    indented.Reachable ∧
    ((indented.after [.calculateLayout ⟨1, 1⟩ ⟨.known 200, .known 200, .ltr⟩]).find?
      ⟨2, 1⟩).map (·.geometry.size.width) = some (.known 100) ∧
    ((indented.after [.calculateLayout ⟨1, 1⟩ ⟨.known 200, .known 200, .ltr⟩]).find?
      ⟨3, 1⟩).map (·.geometry.size.width) = some (.known 108) :=
  ⟨indented_reachable, by decide +kernel, by decide +kernel⟩

/-- What the measured child is offered by the root. -/
def indentedRequest : Request Float32 :=
  ⟨⟨.known 120, .exactly⟩, ⟨.known 20, .exactly⟩, .ltr, .known 200, .known 200, true⟩

theorem exact_offer_decides_indented :
    indented.Sound ∧ indented.Grounded ⟨3, 1⟩ ∧
    indentedRequest.offer .width = ⟨.known 120, .exactly⟩ ∧
    ∃ n m, indented.find? ⟨3, 1⟩ = some n ∧
      ((Pass.start indented .initial).layNode (fun x r p => (Pass.visit 1 x r p).2) ⟨3, 1⟩
        indentedRequest).tree.find? ⟨3, 1⟩ = some m ∧
      m.geometry.measured.get .width = .of (n.bound .row (.known 120 - Extent.of (n.marginFor .row
        (if n.measure.isSome then .known 120 else .known 200))) (.known 200) (.known 200)) := by
  have hs := indented_reachable.sound
  have hg : indented.Grounded ⟨3, 1⟩ := ⟨1, by decide +kernel⟩
  obtain ⟨n, hn⟩ := hg.live
  obtain ⟨m, hm, hsize⟩ := Pass.exact_offer_decides (p := Pass.start indented .initial)
    (r := indentedRequest) (d := .width) hs hg hn 1 rfl
  exact ⟨hs, hg, rfl, n, m, hn, hm, hsize⟩

end Tree

end Flexbox
