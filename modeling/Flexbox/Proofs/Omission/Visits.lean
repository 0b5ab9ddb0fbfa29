import Flexbox.Proofs.Omission.Containers

namespace Flexbox

namespace Pass

variable {α : Type} [Scalar α] {b p q : Pass α} {S H : Set NodeId} {h x : NodeId} {v v' : Visitor α}
  {r : Request α}

theorem measureLeaf_omits (measure : Measure α) (hm : Omits b S H h p q) (hx : x ∈ S) :
    Omits b S H h (p.measureLeaf x measure r) (q.measureLeaf x measure r) := by
  unfold measureLeaf
  dsimp only
  rw [hm.node x hx]
  split
  · exact hm.setMeasured hx _ _
  · exact ((hm.tell _ _).count _ _).setMeasured hx _ _

theorem layNode_omits (hv : Escorts b S H h v v') (hm : Omits b S H h p q) (hx : x ∈ S) :
    Omits b S H h (p.layNode v x r) (q.layNode v' x r) := by
  have hdirection : (q.node x).resolveDirection = (p.node x).resolveDirection :=
    hm.same hx Node.resolveDirection fun _ => rfl
  have hdraw : Omits b S H h (p.edged x r) (q.edged x r) := by
    rw [edged, edged, hdirection]
    exact (hm.count _ _).redraw hx fun _ => rfl
  rw [layNode_eq, layNode_eq, hdirection]
  generalize (p.node x).resolveDirection r.ownerDirection = direction
  generalize p.edged x r = p at hdraw ⊢
  generalize q.edged x r = q at hdraw ⊢
  unfold layInside
  have hempty : (q.node x).children.isEmpty = (p.node x).children.isEmpty := by
    have hlist : (p.node x).children = b.children x := hdraw.children (Or.inl hx)
    have hlist' : (q.node x).children = (b.children x).filter (· != h) := hdraw.children' hx
    rw [hlist, hlist', Bool.eq_iff_iff, List.isEmpty_iff, List.isEmpty_iff]
    exact ⟨hdraw.emptied hx, fun hnone => by rw [hnone]; rfl⟩
  have hset : ∀ (f : Node α → Size α), (∀ n, f (Node.without h n) = f n) → Omits b S H h
      (p.setMeasured x (f (p.node x)).width (f (p.node x)).height)
      (q.setMeasured x (f (q.node x)).width (f (q.node x)).height) := by
    intro f hf
    rw [hdraw.same hx f hf]
    exact hdraw.setMeasured hx _ _
  rw [hdraw.same hx Node.measure fun _ => rfl, hempty]
  cases (p.node x).measure with
  | some measure => exact measureLeaf_omits measure hdraw hx
  | none =>
    dsimp only
    split
    · exact hset (fun n => n.emptySize r) fun _ => rfl
    split
    · exact hset (fun n => n.settledSize r) fun _ => rfl
    · exact layContainer_omits hv direction r hdraw hx

theorem Omits.refresh (hm : Omits b S H h p q) (hx : x ∈ S) (direction : Direction) :
    Omits b S H h (p.refresh x direction) (q.refresh x direction) := by
  have houtdated : (q.node x).isOutdated = (p.node x).isOutdated :=
    hm.same hx Node.isOutdated fun _ => rfl
  unfold Pass.refresh
  rw [hm.generation, houtdated]
  exact ite_omits hm fun _ => hm.updateGeometry hx _

theorem compute_omits (hv : Escorts b S H h v v') (hm : Omits b S H h p q) (hx : x ∈ S) :
    Omits b S H h (p.compute v x r) (q.compute v' x r) := by
  have hlaid := layNode_omits (r := r) hv (hm.record ⟨x, r, .computed⟩ ⟨x, r, .computed⟩) hx
  unfold compute
  exact ((hlaid.updateGeometry hx _).updateGeometry hx _).count _ _

theorem visit_omits (fuel : Nat)
    (hskip : ∀ {p q fuel r}, Lists b S h → Omits b S H h p q →
      Omits b S H h (visit fuel h r p).2 q)
    (hclear : ∀ {p q fuel}, Lists b S h → Omits b S H h p q →
      Omits b S H h (zeroOut fuel h p) q) (hm : Omits b S H h p q) (hx : x ∈ S) :
    (visit fuel x r q).1 = (visit fuel x r p).1 ∧
      Omits b S H h (visit fuel x r p).2 (visit fuel x r q).2 := by
  induction fuel generalizing x r p q with
  | zero => exact ⟨rfl, hm⟩
  | succ fuel ih =>
    have hv : Escorts b S H h (fun x r (p : Pass α) => (visit fuel x r p).2)
      (fun x r p => (visit fuel x r p).2) :=
      ⟨fun _ r _ => visit_moves fuel r, fun hm hx => (ih hm hx).2, hskip, hclear⟩
    have hrefresh := hm.refresh hx r.ownerDirection
    have hfind := node_eq (hm.live x (Or.inl hx))
    have hfind' := node_eq (hm.live' x hx)
    have hremembered : ((q.node x).refreshed q.generation r.ownerDirection).remembered? r =
        ((p.node x).refreshed p.generation r.ownerDirection).remembered? r := by
      rw [← node_refresh hfind, ← node_refresh hfind']
      exact hrefresh.same hx (fun n => n.remembered? r) fun _ => rfl
    have hfinish : ∀ {p q}, Omits b S H h p q → Omits b S H h (p.finish x r) (q.finish x r) := by
      intro p q hm
      rw [finish_eq, finish_eq, hm.generation]
      exact hm.write hx (fun _ => rfl) (fun _ => rfl) fun _ => rfl
    cases hr : ((p.node x).refreshed p.generation r.ownerDirection).remembered? r with
    | some source =>
      rw [visit_of_remembered hfind hr, visit_of_remembered hfind' (hremembered.trans hr)]
      refine ⟨rfl, hfinish ?_⟩
      unfold restore
      exact ((hrefresh.record _ _).updateGeometry hx _).count _ _
    | none =>
      rw [visit_of_forgotten hfind hr, visit_of_forgotten hfind' (hremembered.trans hr)]
      exact ⟨rfl, hfinish (compute_omits hv hrefresh hx)⟩

theorem Gap.unlisted (hg : Gap b S H h) (hl : Lists b S h) : ¬ Lists b H h := by
  rintro ⟨y, hy, hhy⟩
  obtain ⟨x, hx, hhx⟩ := hl
  have hx' := hg.owned x (Or.inl hx) h hhx
  rw [hg.owned y (Or.inr hy) h hhy] at hx'
  exact hg.apart x hx (Option.some.inj hx' ▸ hy)

theorem Omits.self (hm : Omits b S H h p q) (hl : Lists b S h) : Omits b H ∅ h p p := by
  have hno := hm.gap.unlisted hl
  refine ⟨⟨fun x hx c hc _ => hm.gap.below x hx c hc, fun x hx => hx.elim, ?_, fun x _ hx => hx,
      fun hl' => absurd hl' hno, fun x hx hh => absurd ⟨x, hx, hh⟩ hno,
      fun _ _ _ _ _ _ y hy _ hh => absurd ⟨y, hy, hh⟩ hno⟩, hm.left, hm.left, ?_,
    fun x hx => hm.live x (Or.inr hx), ?_, fun x hx => ?_, hm.line⟩
  · exact fun x hx => hm.gap.owned x (Or.inr (hx.resolve_right id))
  · exact fun x hx => hm.live x (Or.inr (hx.resolve_right id))
  · exact fun x hx => hm.core x (Or.inr (hx.resolve_right id))
  · rw [Node.without_of_not_mem]
    intro hh
    have hlist : (p.node x).children = b.children x := hm.children (Or.inr hx)
    exact hno ⟨x, hx, hlist ▸ hh⟩

theorem Omits.detour (hm : Omits b S H h p q) (hl : Lists b S h) {p' : Pass α}
    (hself : Omits b H ∅ h p p → Omits b H ∅ h p' p')
    (hmoves : ∀ R : Set NodeId, Ready R p h → Moves R p p') : Omits b S H h p' q := by
  have hend := hself (hm.self hl)
  have hh := hm.gap.inside hl
  -- Names that nothing bears have to be in the region, too.
  have hready : Ready {x | x ∈ H ∨ ¬ p.tree.Live x} p h := by
    refine ⟨hm.left.sound, ⟨fun x hx c hc => ?_, fun x hx => Or.inr hx⟩, Or.inl hh,
      hm.live h (Or.inr hh)⟩
    rcases hx with hx | hx
    · rw [← children_eq (hm.live x (Or.inr hx)), hm.children (Or.inr hx)] at hc
      exact Or.inl (hm.gap.below x hx c hc)
    · rw [Tree.childrenOf_absent hx] at hc
      cases hc
  have houtside : ∀ x ∈ S, p'.tree.find? x = p.tree.find? x := fun x hx =>
    (hmoves _ hready).outside hready fun hno =>
      hno.elim (hm.gap.apart x hx) fun hdead => hdead (hm.live x (Or.inl hx))
  exact hm.aside hend.left houtside (fun x hx => hend.live x (Or.inl hx))
    (fun x hx => hend.core x (Or.inl hx)) hend.line

theorem zeroOut_detour (fuel : Nat) (hm : Omits b S H h p q) (hl : Lists b S h) :
    Omits b S H h (zeroOut fuel h p) q := by
  have hno := hm.gap.unlisted hl
  refine hm.detour hl (fun hself => ?_) fun R hready => zeroOut_moves fuel hready.admitted
  exact zeroOut_omits fuel (fun hl' => absurd hl' hno) hself (hm.gap.inside hl)

theorem visit_detour (fuel : Nat) (hm : Omits b S H h p q) (hl : Lists b S h) :
    Omits b S H h (visit fuel h r p).2 q := by
  have hno := hm.gap.unlisted hl
  refine hm.detour hl (fun hself => ?_) fun R hready => visit_moves fuel r hready.admitted
  exact (visit_omits fuel (fun hl' => absurd hl' hno) (fun hl' => absurd hl' hno) hself
    (hm.gap.inside hl)).2

end Pass

end Flexbox
