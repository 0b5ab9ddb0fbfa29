import Flexbox.Proofs.Repeating

namespace Flexbox

variable {α : Type}

namespace Tree

variable {t s u w : Tree α} {S : Set NodeId} {root x y c : NodeId} {n k : Node α}

/-- The chain of owners leads from `x` to `root`. -/
def BelongsTo (t : Tree α) (x root : NodeId) : Prop :=
  Relation.ReflTransGen (fun c p => t.ownerOf c = some p) x root

/-- All that belongs to a root, and the names that are not in use. -/
def territory (t : Tree α) (root : NodeId) : Set NodeId := {x | t.Live x → t.BelongsTo x root}

theorem mem_territory_self (t : Tree α) (root : NodeId) : root ∈ t.territory root := fun _ => .refl

theorem not_mem_territory (hx : t.Live x) (hb : ¬ t.BelongsTo x root) : x ∉ t.territory root :=
  fun hm => hb (hm hx)

theorem territory_domain (ht : t.Arena) (root : NodeId) : t.Domain (t.territory root) := by
  refine ⟨fun x hx c _ ho _ => ?_, fun x hx hl => absurd hl hx⟩
  obtain ⟨n, hn, -⟩ := mem_childrenOf.mp (ht.mem_of_ownerOf ho)
  exact .head ho (hx ⟨n, hn⟩)

theorem Domain.congr (hd : t.Domain S) (hl : ∀ x, s.Live x ↔ t.Live x)
    (hc : s.childrenOf = t.childrenOf) (ho : s.ownerOf = t.ownerOf) : s.Domain S := by
  refine ⟨?_, fun x hx => hd.unused x (by rwa [← hl])⟩
  rw [hc, ho]
  exact hd.owned

theorem Privatized.reaches {p : NodeId} (h : t.Privatized p s) (ht : t.Arena) (hp : t.Live p)
    (hx : t.Live x) (hy : t.Live y) (hr : s.Reaches x y) : t.Reaches x y := by
  -- A copy on the way stands in for what it was copied from.
  suffices hboth : (t.Live x → t.Reaches x y) ∧
      (¬ t.Live x → ∀ c, t.Copied p s c x → t.Reaches c y) from hboth.1 hx
  clear hx
  induction hr using Relation.ReflTransGen.head_induction_on with
  | refl => exact ⟨fun _ => .refl, fun hn => absurd hy hn⟩
  | @head x z hz _ ih =>
    refine ⟨fun hx => ?_, fun _ c ⟨n, j, hn, hk⟩ => ?_⟩
    · by_cases hxp : x = p
      · subst hxp
        by_cases hzl : t.Live z
        · exact (ih.1 hzl).of_child (h.fresh z hz hzl)
        · obtain ⟨n, hn⟩ := hp
          obtain ⟨ks, j, hk, hcopies⟩ := h.self n hn
          rw [childrenOf_eq hk] at hz
          obtain ⟨c, hc, hcz⟩ := exists_of_forall₂ hcopies hz
          exact (ih.2 hzl c hcz).of_child (by rwa [childrenOf_eq hn])
      · rw [h.childrenOf_other hx hxp] at hz
        exact (ih.1 (ht.accounted.live hz)).of_child hz
    · rw [childrenOf_eq hk] at hz
      exact (ih.1 (ht.live hn hz)).of_child (by rwa [childrenOf_eq hn])

end Tree

namespace Pass

variable [Scalar α] {S : Set NodeId} {p q : Pass α} {x y : NodeId}

theorem Step.reaches (h : Step S p q) (hs : p.tree.Sound) (hx : p.tree.Live x)
    (hy : p.tree.Live y) (hr : q.tree.Reaches x y) : p.tree.Reaches x y := by
  cases h with
  | @update id f _ hf =>
    have hshape := Tree.SameShape.update p.tree id fun n => (hf n).links.children
    exact hshape.reaches ▸ hr
  | own _ hl =>
    obtain ⟨s, he, -, hp⟩ := ownChildren_run hs hl
    rw [he] at hr
    exact hp.reaches hs.arena hl hx hy hr
  | tell | record | count => exact hr

theorem Moves.reaches (h : Moves S p q) (hs : p.tree.Sound) (hx : p.tree.Live x)
    (hy : p.tree.Live y) (hr : q.tree.Reaches x y) : p.tree.Reaches x y := by
  induction h with
  | refl => exact hr
  | tail hm hstep ih =>
    exact ih (hstep.reaches (Moves.sound hm hs) (Moves.live hm hs hx) (Moves.live hm hs hy) hr)

end Pass

namespace Tree

variable [Scalar α] {t s w : Tree α} {S : Set NodeId} {root x y : NodeId} {n k : Node α}
  {v : Viewport α} {r : Request α}

theorem runPass_stages (ha : Pass.Admitted S (Pass.start t .initial) root)
    (hn : t.find? root = some n) :
    ∃ q : Pass α, Pass.Moves S (Pass.start t .initial) q ∧
      ((t.runPass root v r .initial).tree = q.tree ∨
        (n.refreshed t.generation r.ownerDirection).remembered? r = none ∧
          (t.runPass root v r .initial).tree = q.tree.snap n.config.scale root 0) := by
  have hvisit := Pass.visit_moves (t.slots.size + 1) r ha
  cases hr : (n.refreshed t.generation r.ownerDirection).remembered? r with
  | some source =>
    have hfound : (t.rootVisit root r).1 = false := by
      rw [rootVisit, Pass.visit_of_remembered (p := Pass.start t .initial) hn hr]
    exact ⟨_, hvisit, Or.inl (by rw [runPass_recalled hfound])⟩
  | none =>
    have hfound : (t.rootVisit root r).1 = true := by
      rw [rootVisit, Pass.visit_of_forgotten (p := Pass.start t .initial) hn hr]
    obtain ⟨m, hm, hkin⟩ := hvisit.kin ha.sound hn
    have hplaced := hvisit.trans (Pass.redraw_moves (p := (t.rootVisit root r).2) ha.mem fun k =>
      k.placed k.geometry.direction v.width v.height v.width)
    have hscale : m.config.scale = n.config.scale := by rw [hkin]
    refine ⟨_, hplaced, Or.inr ⟨rfl, ?_⟩⟩
    rw [runPass_computed hfound hm, hscale]
    rfl

theorem runPass_grounded (ht : t.Sound) (hg : t.Grounded root) :
    (t.runPass root v r .initial).tree.Grounded root :=
  (runPass_moves (ht.ready_univ hg.live .initial)).grounded ht hg

theorem snap_shape (t : Tree α) (scale : α) (root : NodeId) (spare : Nat) :
    t.SameShape (t.snap scale root spare) := by
  unfold snap
  split
  · exact SameShape.refl t
  · exact sweep_shape (by intros; rfl) _ _ _

omit [Scalar α] in
theorem clean_shape (t : Tree α) (root : NodeId) (spare : Nat) :
    t.SameShape (t.clean root spare) :=
  sweep_shape (by intros; rfl) _ _ _

omit [Scalar α] in
theorem find?_clean (hg : t.Grounded root) (hk : t.find? x = some k) (spare : Nat) :
    (¬ t.Reaches root x → (t.clean root spare).find? x = some k) ∧
    (t.Reaches root x → (t.clean root spare).find? x = some { k with isDirty := false }) := by
  refine ⟨fun hx => ?_, fun hx => ?_⟩
  · rw [clean, sweepAll, sweep_elsewhere (by intros; rfl) hx, hk]
  · have hkept := map_find?_sweep (t := t) (fun _ n => { n with isDirty := false })
      (fun (y : Unit) _ => y) (f := fun k => { k with isDirty := false }) (fun _ _ => rfl)
      (t.slots.size + 1 + spare) () root x
    rw [hk] at hkept
    obtain ⟨m, hm, hmk⟩ := Option.map_eq_some_iff.mp hkept
    have hclean : m.isDirty = false := sweep_reached (P := fun m => m.isDirty = false)
      (by intros; rfl) (by intros; rfl) hg.unfold_slots (by omega) hx _ m hm
    have hm' : { m with isDirty := false } = m := by rw [← hclean]
    exact hm.trans (congrArg some (hm'.symm.trans hmk))

/-- The part of a layout that shows outside the domain it was computed in. -/
structure Touched (k m : Node α) (reached snapped : Prop) : Prop where
  /-- Marks go, and places and sizes may change, where the walks come by. -/
  shape : ∃ j position size, m = { k with
    sharedCount := j
    isDirty := m.isDirty
    geometry := { k.geometry with position := position, size := size } }
  clean : reached → m.isDirty = false
  spared : ¬ reached → m.isDirty = k.isDirty ∧ m.geometry = k.geometry
  unsnapped : ¬ snapped → m.geometry = k.geometry

theorem laidOut_elsewhere (ha : Pass.Admitted S (Pass.start t .initial) root)
    (hg : t.Grounded root) (hn : t.find? root = some n) (hx : x ∉ S) (hk : t.find? x = some k) :
    (∃ m, (t.laidOut root v r).find? x = some m ∧
      Touched k m ((t.laidOut root v r).Reaches root x)
        ((n.refreshed t.generation r.ownerDirection).remembered? r = none ∧
          ¬ n.config.scale == 0)) ∧
    ((t.laidOut root v r).Reaches root x → t.Reaches root x) := by
  obtain ⟨q, hmoves, hend⟩ := runPass_stages ha hn
  obtain ⟨j, hj⟩ := hmoves.untouched ha.sound hx hk
  have hgq : q.tree.Grounded root := by
    obtain ⟨depth, hd⟩ := hg
    refine ⟨depth, ?_⟩
    rw [hmoves.unfold ha.sound ha.live]
    exact hd
  have hback : q.tree.Reaches root x → t.Reaches root x := hmoves.reaches ha.sound ha.live ⟨k, hk⟩
  have hshape : q.tree.SameShape (t.runPass root v r .initial).tree := by
    rcases hend with he | ⟨-, he⟩
    · rw [he]
      exact SameShape.refl _
    · rw [he]
      exact snap_shape _ _ _ _
  have hshape' := hshape.trans (clean_shape (t.runPass root v r .initial).tree root 0)
  -- What the pass leaves on the node before it is cleaned.
  obtain ⟨position, size, hfind, hspared, hunsnapped⟩ : ∃ position size,
      (t.runPass root v r .initial).tree.find? x = some { k with
        sharedCount := j
        geometry := { k.geometry with position := position, size := size } } ∧
      (¬ q.tree.Reaches root x → { k.geometry with position := position, size := size } =
        k.geometry) ∧
      (¬ ((n.refreshed t.generation r.ownerDirection).remembered? r = none ∧
        ¬ n.config.scale == 0) →
        { k.geometry with position := position, size := size } = k.geometry) := by
    rcases hend with he | ⟨hnone, he⟩
    · exact ⟨k.geometry.position, k.geometry.size, by rw [he, hj], fun _ => rfl, fun _ => rfl⟩
    · obtain ⟨position, size, hsnap, -⟩ := find?_snap hj n.config.scale root 0
      refine ⟨position, size, by rw [he, hsnap], fun hno => ?_, fun hno => ?_⟩
      · have helse : (q.tree.snap n.config.scale root 0).find? x = q.tree.find? x := by
          unfold snap
          split
          · rfl
          · exact sweep_elsewhere (by intros; rfl) hno _ _
        rw [helse, hj] at hsnap
        exact (congrArg Node.geometry (Option.some.inj hsnap)).symm
      · have hscale : (n.config.scale == 0) = true := by
          by_contra hscale
          exact hno ⟨hnone, hscale⟩
        rw [snap, if_pos hscale, hj] at hsnap
        exact (congrArg Node.geometry (Option.some.inj hsnap)).symm
  have hreach : (t.laidOut root v r).Reaches = q.tree.Reaches := hshape'.reaches
  have hclean := find?_clean (hshape.grounded.mpr hgq) hfind 0
  rw [hshape.reaches] at hclean
  refine ⟨?_, fun hr => hback (by rwa [hreach] at hr)⟩
  by_cases hr : q.tree.Reaches root x
  · refine ⟨_, hclean.2 hr, ⟨j, position, size, rfl⟩, fun _ => rfl, fun hno => ?_, hunsnapped⟩
    rw [hreach] at hno
    exact absurd hr hno
  · refine ⟨_, hclean.1 hr, ⟨j, position, size, rfl⟩, fun hyes => ?_, fun _ => ⟨rfl, hspared hr⟩,
      hunsnapped⟩
    rw [hreach] at hyes
    exact absurd hyes hr

omit [Scalar α] in
theorem Settled.find?_other (hs : Settled w s root) (hne : x ≠ root) :
    s.find? x = w.find? x := by
  rcases hs with hs | ⟨differs, hs⟩
  · exact hs x
  · rw [hs x, noted, find?_update_other _ _ hne]

omit [Scalar α] in
theorem Settled.shape (hs : Settled w s root) : w.SameShape s := by
  rcases hs with hs | ⟨differs, hs⟩
  · exact .of_find? hs
  · have hnoted : w.SameShape (w.noted root differs) := SameShape.update w root (by intros; rfl)
    exact hnoted.trans (.of_find? hs)

theorem find?_primed_other (hne : x ≠ root) : (t.primed root).find? x = t.find? x :=
  find?_update_other t Node.resolveSize hne

theorem Sound.admitted_territory (ht : t.Sound) (hl : t.Live root) :
    Pass.Admitted (t.territory root) (Pass.start (t.primed root) .initial) root where
  sound := ht.primed root
  domain := (territory_domain ht.arena root).congr (primed_shape t root).live
    (primed_shape t root).children (ownerOf_update (by intros; rfl))
  mem := mem_territory_self t root
  live := ((primed_shape t root).live _).mpr hl

/-- A layout of `root` computes it anew and snaps the whole tree to a grid. -/
def Snaps (t : Tree α) (n : Node α) (v : Viewport α) : Prop :=
  (n.resolveSize.refreshed t.nextGeneration.generation v.direction).remembered?
    (rootRequest n.resolveSize v) = none ∧ ¬ n.config.scale == 0

/-- A layout touches a node of another tree exactly where it lists it to the end: there it takes a
mark away, and snaps the node if it snaps the root. Nothing else about the node changes but the
number of those who share it. -/
theorem layout_spares_mark_iff (h : t.Reachable) (hg : t.Grounded root)
    (hn : t.find? root = some n) (v : Viewport α) :
    ∃ stats s, (∀ limits, (Edit.calculateLayout root v limits).apply t = (.ok stats, s)) ∧
      ∀ x k, t.find? x = some k → ¬ t.BelongsTo x root →
        (s.Reaches root x → t.Reaches root x) ∧
        ∃ m, s.find? x = some m ∧
          (m.isDirty = k.isDirty ↔ ¬ (k.isDirty = true ∧ s.Reaches root x)) ∧
          (¬ (t.Snaps n v ∧ s.Reaches root x) → m.geometry = k.geometry) ∧
          ∃ j position size, m = { k with
            sharedCount := j
            isDirty := m.isDirty
            geometry := { k.geometry with position := position, size := size } } := by
  have ht := h.sound
  have hl : t.Live root := ⟨n, hn⟩
  obtain ⟨s, hrun, -, hsettled⟩ := Edit.calculateLayout_run ht hg hn v
  refine ⟨_, s, hrun, fun x k hk hb => ?_⟩
  have hne : x ≠ root := fun he => hb (he ▸ .refl)
  have hlaid := laidOut_elsewhere (v := v) (r := rootRequest n.resolveSize v)
    (ht.admitted_territory hl) (primed_grounded.mpr hg) (find?_primed_root hn)
    (not_mem_territory ⟨k, hk⟩ hb) ((find?_primed_other hne).trans hk)
  rw [(primed_shape t root).reaches] at hlaid
  rw [hsettled.shape.reaches, hsettled.find?_other hne]
  obtain ⟨⟨m, hm, htouched⟩, hback⟩ := hlaid
  refine ⟨hback, m, hm, ?_, fun hno => ?_, htouched.shape⟩
  · by_cases hr : ((t.primed root).laidOut root v (rootRequest n.resolveSize v)).Reaches root x
    · rw [htouched.clean hr]
      cases k.isDirty <;> simp [hr]
    · simp [(htouched.spared hr).1, hr]
  · rcases not_and_or.mp hno with hsnap | hr
    · exact htouched.unsnapped hsnap
    · exact (htouched.spared hr).2

def gridless : Config Float32 := { (Config.initial : Config Float32) with scale := 0 }

def measuredPair : Tree Float32 :=
  (Tree.empty gridless).after [.newNode none, .newNode none, .addChild ⟨1, 1⟩ ⟨2, 1⟩,
    .setMeasure ⟨2, 1⟩ ⟨none, fun _ _ => ⟨10, 10⟩⟩]

/-- The pair, laid out. Then the root is copied, and the content of the child changes. -/
def pending : Tree Float32 :=
  (measuredPair.after [.calculateLayout ⟨1, 1⟩ ⟨.known 100, .known 100, .ltr⟩]).after
    [.cloneNode ⟨1, 1⟩, .markDirty ⟨2, 1⟩]

theorem pending_reachable : pending.Reachable := by
  have hpair : measuredPair.Reachable :=
    Reachable.after (.empty rfl) (by simp [Call.Hookless, Call.Returns])
  have hlaid := hpair.call (.calculateLayout ⟨1, 1⟩ ⟨.known 100, .known 100, .ltr⟩) trivial
    fun _ => ⟨2, by decide +kernel⟩
  exact hlaid.after (by simp [Call.Hookless, Call.Returns])

theorem pending_facts : (pending.unfold 2 ⟨3, 1⟩).isSome ∧ pending.ownerOf ⟨2, 1⟩ = some ⟨1, 1⟩ ∧
    pending.ownerOf ⟨1, 1⟩ = none ∧ (pending.find? ⟨2, 1⟩).map (·.isDirty) = some true := by
  decide +kernel

theorem pending_grounded : pending.Grounded ⟨3, 1⟩ := ⟨2, pending_facts.1⟩

theorem pending_not_belongsTo : ¬ pending.BelongsTo ⟨2, 1⟩ ⟨3, 1⟩ := by
  intro hb
  obtain ⟨-, hchild, hroot, -⟩ := pending_facts
  rcases Relation.ReflTransGen.cases_head hb with he | ⟨p, hp, hb⟩
  · simp at he
  · obtain rfl : p = ⟨1, 1⟩ := by simpa [hchild] using hp.symm
    rcases Relation.ReflTransGen.cases_head hb with he | ⟨q, hq, -⟩
    · simp at he
    · simp [hroot] at hq

theorem layout_spares_mark_iff_pending :
    pending.Reachable ∧ pending.Grounded ⟨3, 1⟩ ∧ ¬ pending.BelongsTo ⟨2, 1⟩ ⟨3, 1⟩ ∧
    ∃ stats s, (∀ limits, (Edit.calculateLayout ⟨3, 1⟩ ⟨.known 100, .known 100, .ltr⟩
        limits).apply pending = (.ok stats, s)) ∧
      ∃ m, s.find? ⟨2, 1⟩ = some m ∧ (m.isDirty = true ↔ ¬ s.Reaches ⟨3, 1⟩ ⟨2, 1⟩) := by
  obtain ⟨n, hn⟩ := pending_grounded.live
  obtain ⟨k, hk, hdirty⟩ := Option.map_eq_some_iff.mp pending_facts.2.2.2
  obtain ⟨stats, s, hrun, hother⟩ := layout_spares_mark_iff pending_reachable pending_grounded hn
    ⟨.known 100, .known 100, .ltr⟩
  obtain ⟨-, m, hm, hmark, -⟩ := hother ⟨2, 1⟩ k hk pending_not_belongsTo
  refine ⟨pending_reachable, pending_grounded, pending_not_belongsTo, stats, s, hrun, m, hm, ?_⟩
  simpa [hdirty] using hmark

/-- The copy is laid out from memory, still lists the child, and takes the mark away that the other
tree is waiting on. -/
theorem layout_loses_pending_mark :
    pending.Reachable ∧ ¬ pending.BelongsTo ⟨2, 1⟩ ⟨3, 1⟩ ∧
    (pending.find? ⟨2, 1⟩).map (·.isDirty) = some true ∧
    ((pending.after [.calculateLayout ⟨3, 1⟩ ⟨.known 100, .known 100, .ltr⟩]).find?
      ⟨2, 1⟩).map (·.isDirty) = some false :=
  ⟨pending_reachable, pending_not_belongsTo, pending_facts.2.2.2, by decide +kernel⟩

end Tree

end Flexbox
