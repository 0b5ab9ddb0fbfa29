import Flexbox.Proofs.Exact
import Flexbox.Proofs.Exactness
import Flexbox.Proofs.Insets

namespace Flexbox

variable {α : Type} [Scalar α]

def Node.edgesFor (n : Node α) (axis : FlexDirection) (size : Extent α) : α :=
  n.marginFor axis size + n.frameFor axis size

/-- What is on record for both sides of a dimension, margins, paddings and borders. -/
def Geometry.recordedEdges (g : Geometry α) : Dimension → α
  | .width => g.margin.start + g.margin.finish +
      (g.padding.start + g.border.start + (g.padding.finish + g.border.finish))
  | .height => g.margin.top + g.margin.bottom +
      (g.padding.top + g.border.top + (g.padding.bottom + g.border.bottom))

theorem Node.innerSize_unbounded (n : Node ℚ) (axis : FlexDirection) (size : Extent ℚ) (a : ℚ)
    (hmin : (n.style.minSize.get axis.dimension).isUndefined)
    (hmax : (n.style.maxSize.get axis.dimension).isUndefined) :
    n.innerSize axis (.known a) size = .known (max (a - n.edgesFor axis size) 0) := by
  have hknown : (Extent.known a - .known (n.marginFor axis size) -
      .known (n.frameFor axis size) : Extent ℚ) = .known (a - n.edgesFor axis size) :=
    congrArg Extent.known (by rw [Node.edgesFor]; ring)
  have hcap : ∀ x : ℚ, Scalar.cap x = x := fun _ => rfl
  simp [Node.innerSize, hknown, Length.resolve_of_isUndefined hmin,
    Length.resolve_of_isUndefined hmax, Extent.map, Extent.getD, hcap]

namespace Pass

variable {p : Pass α} {id : NodeId} {n : Node α}

/-- Along a dimension that is offered a size, what a container without bounds has for its children
is the offer less its edges, left to right and of the size of the owner along that dimension, or
nothing. So it is the offer less the edges on record exactly if these come to the same. -/
theorem content_box_of_edges {p : Pass ℚ} {n : Node ℚ} {r : Request ℚ} (hs : p.tree.Sound)
    (hn : p.tree.find? id = some n) (hmeasure : n.measure = none) (hchildren : n.children ≠ [])
    (hwork : r.performLayout = true ∨ r.isSettled = false)
    (hmin : ∀ d, (n.style.minSize.get d).isUndefined)
    (hmax : ∀ d, (n.style.maxSize.get d).isUndefined) (v : Visitor ℚ) :
    ∃ (q : Pass ℚ) (m : Node ℚ) (c : Container ℚ), q.tree.find? id = some m ∧
      p.layNode v id r = (q.basisOfChildren v c).2.layLinesAndSize v c
        (c.linesPlan m (q.basisOfChildren v c).1) r ∧
      ∀ d a, (r.offer d).size = .known a →
        c.innerAlong d.axis = .known (max (a - n.edgesFor d.axis (r.owner d)) 0) ∧
        m.geometry.recordedEdges d =
          n.edgesFor (d.axis.resolve (n.resolveDirection r.ownerDirection)) r.ownerWidth ∧
        (0 ≤ a - n.edgesFor d.axis (r.owner d) →
          (c.innerAlong d.axis = .known (a - m.geometry.recordedEdges d) ↔
            m.geometry.recordedEdges d = n.edgesFor d.axis (r.owner d))) := by
  obtain ⟨u, hu, -, hfind, hlay⟩ := layNode_container hn hmeasure hchildren hwork v
  generalize n.resolveDirection r.ownerDirection = direction at hfind hlay ⊢
  obtain ⟨ks, j, henter, -⟩ := find?_enter (hu.sound hs) hfind
  refine ⟨u.enter id, _, Container.ofRequest ((u.enter id).node id) id direction r, henter, ?_,
    fun d a ha => ?_⟩
  · rw [hlay, layContainer_eq, node_of_find? henter]
  rw [node_of_find? henter]
  generalize hc : Container.ofRequest _ id direction r = c
  have hinner : c.innerAlong d.axis = .known (max (a - n.edgesFor d.axis (r.owner d)) 0) := by
    have hbounds := n.innerSize_unbounded d.axis (r.owner d) a (hmin _) (hmax _)
    rw [← ha] at hbounds
    subst hc
    cases d <;> exact hbounds
  refine ⟨hinner, by cases d <;> rfl, fun hrest => ?_⟩
  rw [hinner, max_eq_left hrest, Extent.known.injEq, sub_right_inj]
  exact eq_comm

end Pass

namespace Tree

/-- A box of 200 by 100 around a child that fills it, its padding and direction as given. -/
def framed (direction : Direction) (padding : Edges (Length ℚ) → Edges (Length ℚ)) : Tree ℚ :=
  (Tree.empty ({ (Config.initial : Config ℚ) with scale := 0 } : Config ℚ)).after [.newNode none,
    .newNode none, .addChild ⟨1, 1⟩ ⟨2, 1⟩,
    .updateStyle ⟨1, 1⟩ fun s => { s with
      direction := direction, size := ⟨.points 200, .points 100⟩, padding := padding s.padding },
    .updateStyle ⟨2, 1⟩ fun s => { s with flexGrow := .known 1 }]

theorem framed_reachable (direction : Direction)
    (padding : Edges (Length ℚ) → Edges (Length ℚ)) : (framed direction padding).Reachable :=
  Reachable.after (.empty rfl) (by simp [Call.Hookless, Call.Returns])

/-- A tenth of the width above the child is on record, and a tenth of the height is taken off. -/
theorem content_box_misses_record_framed :
    let t := framed .ltr fun e => { e with top := .percent 10 }
    let s := t.after [.calculateLayout ⟨1, 1⟩ ⟨.known 200, .known 100, .ltr⟩]
    t.Reachable ∧ (s.find? ⟨1, 1⟩).map (·.geometry.recordedEdges .height) = some 20 ∧
      (s.find? ⟨2, 1⟩).map (·.geometry.size.height) = some (.known 90) :=
  ⟨framed_reachable _ _, by decide +kernel, by decide +kernel⟩

/-- Right to left, the left padding is on record and not taken off. -/
theorem content_box_of_edges_framed :
    let t := framed .rtl fun e => { e with start := .points 10, left := .points 30 }
    let r : Request ℚ := ⟨⟨.known 200, .exactly⟩, ⟨.known 100, .exactly⟩, .ltr, .known 200,
      .known 100, true⟩
    let v : Visitor ℚ := fun x r p => (Pass.visit 1 x r p).2
    ∃ (q : Pass ℚ) (m : Node ℚ) (c : Container ℚ), q.tree.find? ⟨1, 1⟩ = some m ∧
      (Pass.start t .initial).layNode v ⟨1, 1⟩ r = (q.basisOfChildren v c).2.layLinesAndSize v c
        (c.linesPlan m (q.basisOfChildren v c).1) r ∧
      m.geometry.recordedEdges .width = 40 ∧ c.innerAlong .row = .known 190 := by
  intro t r v
  have hs : t.Sound := (framed_reachable _ _).sound
  have hroot : (t.find? ⟨1, 1⟩).map (fun n => (n.measure.isNone, n.children,
      n.edgesFor .row (.known 200),
      n.edgesFor (FlexDirection.row.resolve (n.resolveDirection .ltr)) (.known 200))) =
      some (true, [⟨2, 1⟩], 10, 40) := by decide +kernel
  have hfree : ∀ d, ((t.find? ⟨1, 1⟩).map fun n => ((n.style.minSize.get d).isUndefined,
      (n.style.maxSize.get d).isUndefined)) = some (true, true) := fun d => by
    cases d <;> decide +kernel
  clear_value t
  obtain ⟨n, hn, he⟩ := Option.map_eq_some_iff.mp hroot
  simp only [Prod.mk.injEq, Option.isNone_iff_eq_none] at he
  obtain ⟨hmeasure, hchildren, hedges, hrecord⟩ := he
  simp only [hn, Option.map_some, Option.some.injEq, Prod.mk.injEq] at hfree
  obtain ⟨q, m, c, hm, hlay, hbox⟩ := Pass.content_box_of_edges (p := .start t .initial) (r := r)
    hs hn hmeasure (by simp [hchildren]) (Or.inl rfl) (fun d => (hfree d).1)
    (fun d => (hfree d).2) v
  obtain ⟨hinner, hrecorded, -⟩ := hbox .width 200 rfl
  refine ⟨q, m, c, hm, hlay, hrecorded.trans hrecord, hinner.trans ?_⟩
  rw [show n.edgesFor Dimension.width.axis (r.owner .width) = 10 from hedges]
  norm_num

end Tree

end Flexbox
