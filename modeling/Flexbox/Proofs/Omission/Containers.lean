import Flexbox.Proofs.Omission.Baselines

namespace Flexbox

namespace Pass

variable {α : Type} [Scalar α] {b p p' q : Pass α} {S H : Set NodeId} {h x z : NodeId}
  {v v' : Visitor α} {c : Container α}

theorem Omits.sole (hv : Escorts b S H h v v') (hl : Lists b S h) (hm : Omits b S H h p q)
    (hw : Works v z (Sole h) p p') : Omits b S H h p' q := by
  have hH := hm.gap.inside hl
  induction hw with
  | refl => exact hm
  | tail _ hdoes ih =>
    obtain ⟨t, ht, hdoes⟩ := hdoes
    cases hdoes with
    | settle _ x | base _ x | place _ x =>
      obtain rfl : x = h := ht
      exact ih.skip hH (fun _ => rfl) fun _ => rfl
    | clear _ x =>
      obtain rfl : x = h := ht
      exact hv.clear hl ih
    | ask _ x =>
      obtain rfl : x = h := ht
      exact hv.skip hl ih
    | note | overrun | heed | number | tell | count => exact ht.elim

/-- A pass and one without `h` in a container. -/
def omitting (b : Pass α) (S H : Set NodeId) (h : NodeId) (c : Container α) (p : Pass α)
    (v v' : Visitor α) : Pairing α where
  e := false
  c := c
  base := p
  visit := v
  visit' := v'
  keeps x := x != h
  Holds _ := Omits b S H h
  Loud _ := False

theorem omitting_spares (hv : Escorts b S H h v v') (hc : Seated b S c) (hm : Omits b S H h p q)
    (hh : h ∈ b.children c.id) : (omitting b S H h c p v v').Spares h := by
  have hkids : (omitting b S H h c p v v').kids = b.children c.id := hm.children (Or.inl hc.mem)
  have hignored := hm.gap.ignored c.id hc.mem hh
  have hcore := hm.core h (Or.inr (hm.skipped hc.mem hh).1)
  exact {
    hidden := (hm.skipped hc.mem hh).2.1
    margins := by
      change (p.node h).isAbsolute = true ∨ (p.node h).hasAutoMargin c.mainAxis = false
      rw [hcore, hc.axis]
      exact hignored.margins.imp id fun hauto => hauto c.direction
    others := by
      rw [hkids]
      intro hnone
      rw [hm.emptied hc.mem hnone] at hh
      cases hh
    lone := by
      intro K u w y hs hy
      rw [hkids]
      exact hs.holds.loneFlexible hc.mem (bne_iff_ne.mp hy.2)
    level := fun hs => hs.holds.hasBaselineChildren hc.mem
    aside := fun hs hw => Or.inr (hs.holds.sole hv ⟨c.id, hc.mem, hh⟩ hw) }

theorem omitting_tandem (hv : Escorts b S H h v v') (hc : Seated b S c) (hm : Omits b S H h p q) :
    Tandem (omitting b S H h c p v v') := by
  have hkids : (omitting b S H h c p v v').kids = b.children c.id := hm.children (Or.inl hc.mem)
  have hne : ∀ {x}, (omitting b S H h c p v v').Kid x → x ≠ h := fun hx => bne_iff_ne.mp hx.2
  have hmem : ∀ {x}, (omitting b S H h c p v v').Kid x → x ∈ S := fun hx =>
    hm.gap.closed c.id hc.mem _ (hkids ▸ hx.1) (hne hx)
  exact {
    mover := hv.mover
    household := ⟨(Ready.univ hm.left.sound (hm.live c.id (Or.inl hc.mem))).held, hm.owned hc.mem⟩
    spares := by
      intro x hx hno
      obtain rfl : x = h := by simpa [omitting] using hno
      exact omitting_spares hv hc hm (hkids ▸ hx)
    louder := fun _ hl => hl
    mono := fun _ hk => hk
    parent := fun hs => hs.holds.facing hc.mem
    kid := fun hs hx => hs.holds.facing (hmem hx)
    listed := by
      intro K u w hs
      exact (hs.holds.children' hc.mem).trans
        (congrArg (List.filter (· != h)) (hs.holds.children (Or.inl hc.mem)).symm)
    direction := fun hs => hs.holds.same hc.mem (fun n => n.geometry.direction) fun _ => rfl
    size := fun hs hx _ => hs.holds.same (hmem hx) Node.resolvedSize fun _ => rfl
    basis := fun hs hx _ =>
      hs.holds.same (hmem hx) (fun n => n.geometry.flexBasis) fun _ => rfl
    line := fun hs hx _ => hs.holds.same (hmem hx) Node.line fun _ => rfl
    measure := by
      rintro K u w x hs (rfl | hx) _
      · exact hs.holds.same hc.mem (fun n => n.geometry.measured) fun _ => rfl
      · exact hs.holds.same (hmem hx) (fun n => n.geometry.measured) fun _ => rfl
    stale := by
      intro K u w x hs hx
      rw [hs.holds.generation]
      exact hs.holds.same (hmem hx) (Container.basisIsStale · u.generation) fun _ => rfl
    kept := fun hs _ _ => hs.holds
    count := fun hs _ => hs.holds.count _ _
    overflow := fun hs => hs.holds.updateGeometry hc.mem _
    legacy := fun hs => hs.holds.updateGeometry hc.mem _
    heed := by
      intro K u w x hs hx
      rw [hs.holds.same (hmem hx) (fun n => n.geometry.hadOverflow) fun _ => rfl]
      exact (hs.noteIf _ (hs.holds.updateGeometry hc.mem _)).holds
    setMeasured := fun hs _ _ => hs.holds.setMeasured hc.mem _ _
    resolve := fun hs hx => hs.holds.write (hmem hx) (fun _ => rfl) (fun _ => rfl) fun _ => rfl
    clear := by
      intro K u w x hs hx
      rw [hs.holds.depth]
      exact Or.inr (zeroOut_omits _ hv.clear hs.holds (hmem hx))
    start := fun hs hx _ => ite_omits hs.holds fun _ => hs.holds.redraw (hmem hx) fun _ => rfl
    setBasis := by
      intro K u w x hs hx basis
      rw [Pass.setBasis, Pass.setBasis, hs.holds.generation]
      exact hs.holds.updateGeometry (hmem hx) _
    setLine := fun hs hx _ =>
      hs.holds.update (hmem hx) (fun _ => rfl) (fun _ => rfl) fun he => absurd he (hne hx)
    shift := fun hs hx _ _ => hs.holds.updateGeometry (hmem hx) _
    setTrailing := by
      intro K u w x axis hs hx _ _ _ _
      refine ite_omits hs.holds fun _ => ?_
      change Omits b S H h (u.setTrailing c axis x) (w.setTrailing c axis x)
      unfold setTrailing
      dsimp only
      rw [hs.holds.node _ hc.mem, hs.holds.node x (hmem hx)]
      exact hs.holds.updateGeometry (hmem hx) _
    baseline := by
      rintro K u w x hs hx hline
      rw [Pass.baseline, Pass.baseline, hs.holds.depth]
      refine baselineWithin_omits u.depth ?_ hs.holds (hmem hx)
      rcases hline with hline | ⟨hflow, halign⟩
      · exact hm.gap.overlooked _ hc.mem
          ((hm.levels_iff hc.mem).mp (hasBaselineChildren_iff.mp hline)) x (hkids ▸ hx.1) (hne hx)
      · exact hm.overlooked_of_child hc.mem (hkids ▸ hx.1) (hne hx) hflow halign
    ask := fun hs hx _ => Or.inr (hv.visit hs.holds (hmem hx)) }

theorem layContainer_omits (hv : Escorts b S H h v v') (direction : Direction) (r : Request α)
    (hm : Omits b S H h p q) (hx : x ∈ S) :
    Omits b S H h (p.layContainer v x direction r) (q.layContainer v' x direction r) := by
  have henter : Omits b S H h (p.enter x) (q.enter x) := by
    unfold enter
    rw [hm.ownChildren hx, hm.ownChildren' hx]
    exact hm.updateGeometry hx _
  rw [layContainer_eq, layContainer_eq]
  generalize p.enter x = p at henter ⊢
  generalize q.enter x = q at henter ⊢
  have hcontainer : Container.ofRequest (q.node x) x direction r =
      Container.ofRequest (p.node x) x direction r :=
    henter.same hx (fun n => Container.ofRequest n x direction r) fun _ => rfl
  have hc : Seated b S (Container.ofRequest (p.node x) x direction r) :=
    ⟨hx, congrArg (fun style => style.flexDirection.resolve direction)
      (henter.style (Or.inl hx))⟩
  dsimp only
  rw [hcontainer]
  have hgo := (omitting_tandem hv hc henter).layContent r ⟨Moves.refl p, henter⟩
  exact (hgo.agree.resolve_left id).2

end Pass

end Flexbox
