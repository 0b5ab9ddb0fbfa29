import Flexbox.Proofs.Tandem.Containers

namespace Flexbox

variable {α : Type}

/-- The same pass under other limits. -/
def Pass.within {α : Type} (p : Pass α) (l : Limits α) : Pass α := { p with limits := l }

namespace Pass

def within₂ {α β : Type} (s : β × Pass α) (l : Limits α) : β × Pass α := (s.1, s.2.within l)

section Primitives

variable (p : Pass α) (l : Limits α)

@[simp] theorem within_tree : (p.within l).tree = p.tree := rfl

@[simp] theorem update_within (id : NodeId) (f : Node α → Node α) :
    (p.within l).update id f = (p.update id f).within l := rfl

@[simp] theorem updateGeometry_within (id : NodeId) (f : Geometry α → Geometry α) :
    (p.within l).updateGeometry id f = (p.updateGeometry id f).within l := rfl

@[simp] theorem redraw_within (id : NodeId) (f : Node α → Geometry α) :
    (p.within l).redraw id f = (p.redraw id f).within l := rfl

@[simp] theorem ownChildren_within [Scalar α] (id : NodeId) :
    (p.within l).ownChildren id = (p.ownChildren id).within l := rfl

@[simp] theorem count_within (f : Stats → Stats) :
    (p.within l).count f = (p.count f).within l := rfl

@[simp] theorem tell_within (e : Event α) : (p.within l).tell e = (p.tell e).within l := rfl

@[simp] theorem record_within (v : Visit α) : (p.within l).record v = (p.record v).within l := rfl

theorem slots_le_depth : p.tree.slots.size ≤ p.depth := by
  unfold depth
  omega

variable {p l} {q : Pass α} {id : NodeId}

theorem node_within (hl : p.tree.Live id) : (p.within l).node id = p.node id := by
  obtain ⟨n, hn⟩ := hl
  simp [node, hn]

theorem children_within (hl : p.tree.Live id) : (p.within l).children id = p.children id := by
  rw [children, node_within hl, children]

theorem nodes_within {xs : List NodeId} (hl : ∀ x ∈ xs, p.tree.Live x) :
    (xs.map fun x => (x, (p.within l).node x)) = xs.map fun x => (x, p.node x) :=
  List.map_congr_left fun x hx => by rw [node_within (hl x hx)]

theorem ite_within {b : Prop} [Decidable b] {p' q' : Pass α} (hp : p' = p.within l)
    (hq : q' = q.within l) : (if b then p' else q') = (if b then p else q).within l := by
  split
  · exact hp
  · exact hq

end Primitives

variable {S : Set NodeId} {p q : Pass α} {id x : NodeId} {h : Nat} {l : Limits α}
  {visit visit' : Visitor α} {fuel fuel' : Nat} {c : Container α}

/-- A node of a sound arena that is no higher than `h`. -/
structure Fit (h : Nat) (p : Pass α) (id : NodeId) : Prop where
  sound : p.tree.Sound
  live : p.tree.Live id
  deep : (p.tree.unfold h id).isSome

theorem Fit.ready (hf : Fit h p id) : Ready Set.univ p id :=
  .univ hf.sound hf.live

theorem Fit.child (hf : Fit (h + 1) p id) (hc : x ∈ p.children id) : Fit h p x := by
  refine ⟨hf.sound, (hf.ready.child hc).live, (Tree.unfold_isSome.mp hf.deep).2 x ?_⟩
  rwa [children_eq hf.live] at hc

theorem Fit.slots (hf : Fit h p id) : Fit p.tree.slots.size p id :=
  ⟨hf.sound, hf.live, Tree.Grounded.unfold_slots ⟨h, hf.deep⟩⟩

variable [Scalar α]

theorem Moves.fit (hm : Moves S p q) (hf : Fit h p id) : Fit h q id := by
  refine ⟨hm.sound hf.sound, hm.live hf.sound hf.live, ?_⟩
  rw [hm.unfold hf.sound hf.live]
  exact hf.deep

/-- Two visitors that answer alike under their own limits, for nodes no higher than `h`. -/
structure Steady (h : Nat) (l : Limits α) (visit visit' : Visitor α) : Prop where
  moves : Mover Set.univ visit
  same : ∀ id r p, Fit h p id → visit' id r (p.within l) = (visit id r p).within l

theorem zeroOut_within (hfit : Fit h p id) (hf : h ≤ fuel) (hf' : h ≤ fuel') :
    zeroOut fuel' id (p.within l) = (zeroOut fuel id p).within l := by
  induction h generalizing p id fuel fuel' with
  | zero => cases hfit.deep
  | succ h ih =>
    obtain ⟨fuel, rfl⟩ := exists_pred hf
    obtain ⟨fuel', rfl⟩ := exists_pred hf'
    rw [zeroOut_succ, zeroOut_succ]
    have hown : Moves Set.univ p ((p.update id Node.emptied).ownChildren id) :=
      (update_moves (f := Node.emptied) (Set.mem_univ id) fun _ => rfl).trans
        (Step.own _ (Set.mem_univ id) (Tree.live_update.mpr hfit.live)).moves
    simp only [update_within, ownChildren_within]
    generalize (p.update id Node.emptied).ownChildren id = q at hown ⊢
    have hq := hown.fit hfit
    rw [children_within hq.live]
    have hall : ∀ x ∈ q.children id, Fit h q x := fun x hx => hq.child hx
    generalize q.children id = xs at hall ⊢
    clear hown hq
    induction xs generalizing q with
    | nil => rfl
    | cons x xs ihxs =>
      have hx := hall x (by simp)
      have hm := zeroOut_moves fuel hx.ready.admitted
      rw [List.foldl_cons, List.foldl_cons, ih hx (show h ≤ fuel by omega)
        (show h ≤ fuel' by omega)]
      exact ihxs _ fun y hy => hm.fit (hall y (by simp [hy]))

theorem zeroOut_depth_within (hfit : Fit h p id) :
    zeroOut (p.within l).depth id (p.within l) = (zeroOut p.depth id p).within l :=
  zeroOut_within hfit.slots (slots_le_depth p) (slots_le_depth (p.within l))

omit [Scalar α] in
theorem baselineChild?_mem (n : Node α) (nodes : List (NodeId × Node α)) (found : Option NodeId)
    (hx : n.baselineChild? nodes found = some x) : found = some x ∨ x ∈ nodes.map Prod.fst := by
  induction nodes generalizing found with
  | nil => exact Or.inl hx
  | cons node rest ih =>
    obtain ⟨id, m⟩ := node
    rw [Node.baselineChild?] at hx
    split at hx
    · exact Or.inl hx
    split at hx
    · rcases ih _ hx with hx | hx
      · exact Or.inl hx
      · exact Or.inr (by simp_all)
    split at hx
    · exact Or.inr (by simp_all)
    · rcases ih _ hx with hx | hx
      · cases found with
        | none => exact Or.inr (by simp_all)
        | some y => exact Or.inl (by simpa using hx)
      · exact Or.inr (by simp_all)

theorem baselineWithin_within (hfit : Fit h p id) (hf : h ≤ fuel) (hf' : h ≤ fuel') :
    baselineWithin fuel' id (p.within l) = within₂ (baselineWithin fuel id p) l := by
  induction h generalizing id fuel fuel' with
  | zero => cases hfit.deep
  | succ h ih =>
    obtain ⟨fuel, rfl⟩ := exists_pred hf
    obtain ⟨fuel', rfl⟩ := exists_pred hf'
    rw [baselineWithin, baselineWithin]
    have hnodes := nodes_within (l := l) fun x hx => (hfit.child (x := x) hx).live
    rw [children] at hnodes
    simp only [node_within hfit.live, tell_within, within_tree]
    split
    · split <;> rfl
    · rw [hnodes]
      split
      · rename_i x hx
        have hmem : x ∈ p.children id := by
          rcases baselineChild?_mem _ _ _ hx with hx | hx
          · cases hx
          · simpa [children] using hx
        have hchild := hfit.child hmem
        have hm : Moves Set.univ p (baselineWithin fuel x p).2 := baselineWithin_moves fuel
        simp only [ih hchild (show h ≤ fuel by omega) (show h ≤ fuel' by omega), within₂,
          node_within (hm.live hchild.sound hchild.live)]
      · rfl

theorem baseline_within (hfit : Fit h p id) :
    (p.within l).baseline id = within₂ (p.baseline id) l :=
  baselineWithin_within hfit.slots (slots_le_depth p) (slots_le_depth (p.within l))

/-- A pass and the same pass under other limits, in a container. -/
def limited (l : Limits α) (c : Container α) (p : Pass α) (visit visit' : Visitor α) :
    Pairing α where
  e := false
  c := c
  base := p
  visit := visit
  visit' := visit'
  keeps _ := true
  Holds _ p q := q = p.within l
  Loud _ := False

theorem limited_tandem (hv : Steady h l visit visit') (hc : Fit (h + 1) p c.id)
    (ho : Household p c.id) : Tandem (limited l c p visit visit') := by
  have hself : ∀ {q}, Moves Set.univ p q → (q.within l).node c.id = q.node c.id := fun hm =>
    node_within (hm.live hc.sound hc.live)
  have hkid : ∀ {q x}, Moves Set.univ p q → x ∈ p.children c.id → Fit h q x := fun hm hx =>
    hm.fit (hc.child hx)
  have hread : ∀ {q x}, Moves Set.univ p q → x ∈ p.children c.id →
      (q.within l).node x = q.node x := fun hm hx => node_within (hkid hm hx).live
  exact {
    mover := hv.moves
    household := ho
    spares := fun _ hno => nomatch hno
    louder := fun _ hl => hl
    mono := fun _ hk => hk
    parent := by
      rintro K q _ ⟨hm, rfl⟩
      change Node.Faces false (q.node c.id) ((q.within l).node c.id) ∧ _
      rw [show (limited l c p visit visit').c.id = c.id from rfl, hself hm]
      exact ⟨.refl _, (Node.Faces.refl _).level⟩
    kid := by
      rintro K q _ x ⟨hm, rfl⟩ hx
      rw [hread hm hx.1]
      exact ⟨.refl _, (Node.Faces.refl _).level⟩
    listed := by
      rintro K q _ ⟨hm, rfl⟩
      exact (congrArg Node.children (hself hm)).trans (List.filter_true _).symm
    direction := by
      rintro K q _ ⟨hm, rfl⟩
      exact congrArg (fun n : Node α => n.geometry.direction) (hself hm)
    size := by
      rintro K q _ x ⟨hm, rfl⟩ hx _
      rw [hread hm hx.1]
    basis := by
      rintro K q _ x ⟨hm, rfl⟩ hx _
      rw [hread hm hx.1]
    line := by
      rintro K q _ x ⟨hm, rfl⟩ hx _
      rw [hread hm hx.1]
    measure := by
      rintro K q _ x ⟨hm, rfl⟩ (rfl | hx) _
      · exact congrArg (fun n : Node α => n.geometry.measured) (hself hm)
      · rw [hread hm hx.1]
    stale := by
      rintro K q _ x ⟨hm, rfl⟩ hx
      rw [hread hm hx.1]
      rfl
    kept := fun hs _ _ => hs.holds
    count := by
      rintro K q _ ⟨-, rfl⟩ _
      rfl
    overflow := by
      rintro K q _ ⟨-, rfl⟩
      rfl
    legacy := by
      rintro K q _ ⟨-, rfl⟩
      rfl
    heed := by
      rintro K q _ x ⟨hm, rfl⟩ hx
      rw [hread hm hx.1]
      exact ite_within rfl rfl
    setMeasured := by
      rintro K q _ ⟨-, rfl⟩ _ _
      rfl
    resolve := by
      rintro K q _ x ⟨-, rfl⟩ _
      rfl
    clear := by
      rintro K q _ x ⟨hm, rfl⟩ hx
      exact Or.inr (zeroOut_depth_within (hkid hm hx.1))
    start := by
      rintro K q _ x ⟨-, rfl⟩ _ _
      exact ite_within rfl rfl
    setBasis := by
      rintro K q _ x ⟨-, rfl⟩ _ _
      rfl
    setLine := by
      rintro K q _ x ⟨-, rfl⟩ _ _
      rfl
    shift := by
      rintro K q _ x ⟨-, rfl⟩ _ _ _
      rfl
    setTrailing := by
      rintro K q _ x axis ⟨hm, rfl⟩ hx _ _ _ _
      refine ite_within ?_ rfl
      unfold Pass.setTrailing
      rw [hread hm hx.1]
      dsimp only
      rw [show (limited l c p visit visit').c'.id = c.id from rfl, hself hm]
      rfl
    baseline := by
      rintro K q _ x ⟨hm, rfl⟩ hx _
      rw [baseline_within (hkid hm hx.1)]
      exact ⟨rfl, rfl⟩
    ask := by
      rintro K q _ x r ⟨hm, rfl⟩ hx _
      exact Or.inr (hv.same x r q (hkid hm hx.1)) }

theorem layContainer_within (hv : Steady h l visit visit') (direction : Direction) (r : Request α)
    (hx : Fit (h + 1) p id) :
    (p.within l).layContainer visit' id direction r =
      (p.layContainer visit id direction r).within l := by
  have hq := (enter_moves hx.live).fit hx
  have henter : (p.within l).enter id = (p.enter id).within l := rfl
  rw [layContainer_eq, layContainer_eq, henter]
  have hsame : Container.ofRequest (((p.enter id).within l).node id) id direction r =
      Container.ofRequest ((p.enter id).node id) id direction r := by rw [node_within hq.live]
  dsimp only
  rw [hsame]
  have hT := limited_tandem hv (c := .ofRequest ((p.enter id).node id) id direction r) hq
    (.enter hx.sound hx.live)
  exact ((hT.layContent r ⟨Moves.refl _, rfl⟩).agree.resolve_left fun hno => hno).2

theorem measureLeaf_within (measure : Measure α) (r : Request α) (hx : p.tree.Live id) :
    (p.within l).measureLeaf id measure r = (p.measureLeaf id measure r).within l := by
  simp only [measureLeaf, node_within hx]
  exact ite_within rfl rfl

theorem layNode_within (hv : Steady h l visit visit') (r : Request α)
    (hx : Fit (h + 1) p id) :
    (p.within l).layNode visit' id r = (p.layNode visit id r).within l := by
  have hu := (edged_moves (Set.mem_univ id) r).fit hx
  have hedged : (p.within l).edged id r = (p.edged id r).within l := by
    rw [edged, node_within hx.live, count_within, redraw_within]
    rfl
  rw [layNode_eq, layNode_eq, hedged, node_within hx.live]
  generalize p.edged id r = u at hu ⊢
  unfold layInside
  rw [node_within hu.live]
  split
  · exact measureLeaf_within _ r hu.live
  · exact ite_within rfl (ite_within rfl (layContainer_within hv _ r hu))

theorem compute_within (hv : Steady h l visit visit') (r : Request α)
    (hx : Fit (h + 1) p id) :
    (p.within l).compute visit' id r = (p.compute visit id r).within l := by
  have hrec : Moves Set.univ p (p.record ⟨id, r, .computed⟩) :=
    (Step.record p (Set.mem_univ id)).moves
  have hlay := layNode_moves hv.moves r (hrec.admitted hx.ready.admitted)
  have hdir := hlay.trans (updateGeometry_moves (Set.mem_univ id) fun g =>
    { g with lastOwnerDirection := some r.ownerDirection })
  have hlive := hdir.live (hrec.fit hx).sound (hrec.fit hx).live
  unfold compute
  simp only [record_within, layNode_within hv r (hrec.fit hx), updateGeometry_within,
    node_within hlive, count_within]

theorem restore_within (r : Request α) (source : Source) :
    (p.within l).restore id r source = (p.restore id r source).within l := rfl

omit [Scalar α] in
theorem finish_within (r : Request α) : (p.within l).finish id r = (p.finish id r).within l := by
  unfold finish
  dsimp only
  rw [update_within, ite_within rfl rfl]
  rfl

theorem visit_within (hx : Fit h p id) (hf : h ≤ fuel) (hf' : h ≤ fuel') (r : Request α) :
    Pass.visit fuel' id r (p.within l) = within₂ (Pass.visit fuel id r p) l := by
  induction h generalizing p id r fuel fuel' with
  | zero => cases hx.deep
  | succ h ih =>
    obtain ⟨fuel, rfl⟩ := exists_pred hf
    obtain ⟨fuel', rfl⟩ := exists_pred hf'
    have hforget : Moves Set.univ p (p.refresh id r.ownerDirection) :=
      ite_moves (updateGeometry_moves (Set.mem_univ id) _) (Moves.refl p)
    have hrefresh : (p.within l).refresh id r.ownerDirection =
        (p.refresh id r.ownerDirection).within l := by
      rw [refresh, node_within hx.live]
      exact ite_within rfl rfl
    rw [visit_succ, visit_succ, hrefresh]
    dsimp only
    generalize p.refresh id _ = q at hforget ⊢
    have hq := hforget.fit hx
    have hsteady : Steady h l (fun id r p => (Pass.visit fuel id r p).2)
        (fun id r p => (Pass.visit fuel' id r p).2) :=
      ⟨fun id r p hp => visit_moves fuel r hp, fun id r p hp => by
        rw [ih hp (show h ≤ fuel by omega) (show h ≤ fuel' by omega)]
        rfl⟩
    rw [node_within hq.live]
    split
    · rw [restore_within, finish_within]
      rfl
    · rw [compute_within hsteady r hq, finish_within]
      rfl

end Pass

end Flexbox
