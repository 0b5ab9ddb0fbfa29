import Flexbox.Proofs.Visits

namespace Flexbox

variable {α : Type} [Scalar α]

/-- Where a box stands and how large it is, with its resolved margins, borders and paddings. -/
def Geometry.frame {α : Type} (g : Geometry α) :
    Offsets α × Size (Extent α) × Insets α × Insets α × Insets α :=
  (g.position, g.size, g.margin, g.border, g.padding)

/-- The node `n` with at most the marks of earlier layouts on it: it is clean or remembers nothing,
and its basis does not hold for the pass numbered `g`. -/
structure Node.Worn {α : Type} [Scalar α] (g : UInt32) (n m : Node α) : Prop where
  core : SameCore n m
  dirty : m.isDirty = true → m.IsBlank
  stale : Container.basisIsStale m g = true

theorem Node.remembered?_resized {α : Type} [Scalar α] (m : Node α) (size : Size (Length α))
    (g : UInt32) (direction : Direction) (r : Request α) :
    (Node.refreshed { m with resolvedSize := size } g direction).remembered? r =
      (m.refreshed g direction).remembered? r := by
  unfold refreshed
  split
  · rename_i hout
    rw [if_pos (show m.isOutdated g direction = true from hout)]
    rfl
  · rename_i hout
    rw [if_neg (show ¬ m.isOutdated g direction = true from hout)]
    rfl

theorem Node.stale_of_next {α : Type} {m : Node α} {g g' : UInt32}
    (hg : g' = g + 1 ∨ g' = g + 1 + 1)
    (hm : m.geometry.flexBasis.isUndefined = true ∨ m.geometry.basisGeneration = g + 1) :
    Container.basisIsStale m (g' + 1) = true := by
  unfold Container.basisIsStale
  rcases hm with hm | hm
  · rw [hm, Bool.true_or, Bool.true_or]
  · have hne : g + 1 ≠ g' + 1 := by
      rcases hg with rfl | rfl <;> grind
    simp [hm, hne]

namespace Pass

variable {b p p' q : Pass α} {B : Set NodeId} {x root : NodeId}

theorem Boxed.frame (hb : Boxed x p p') :
    (p.node x).geometry.frame = (p'.node x).geometry.frame := by
  have hposition : (p.node x).geometry.position = (p'.node x).geometry.position := by
    have hside := fun s => show (p.node x).geometry.position.get s =
      (p'.node x).geometry.position.get s from hb.side s
    generalize (p.node x).geometry.position = o at hside
    generalize (p'.node x).geometry.position = o' at hside
    cases o
    cases o'
    simp only [Offsets.mk.injEq]
    exact ⟨hside .left, hside .top, hside .right, hside .bottom⟩
  obtain ⟨-, hmargin, hborder, hpadding⟩ := hb.edges
  have hsize : (p.node x).geometry.size = (p'.node x).geometry.size := hb.size
  simp only [Geometry.frame, hposition, hsize, hmargin, hborder, hpadding]

theorem Stage.quiet_of_blank (hs : Stage b B) (hb : ∀ x ∈ B, (b.node x).IsBlank) (q : Pass α) :
    Quiet b B q := by
  refine ⟨fun v _ hv _ => Node.recalled?_eq_none.mp ?_, Or.inr fun x hx => (hb x hx).1⟩
  refine ((hb _ hv).refreshed _ _).recalled? ?_ _
  rw [Node.refreshed_core]
  exact hs.unmeasured _ hv

theorem Stage.twins (hs : Stage b B) (hb : b.tree.Sound) (hp : p.tree.Sound)
    (hlive : ∀ x ∈ B, p.tree.Live x) (hcore : ∀ x ∈ B, Node.SameCore (b.node x) (p.node x))
    (hstale : ∀ x ∈ B, Container.basisIsStale (b.node x) b.generation = true)
    (hnew : ∀ x ∈ B, (p.node x).geometry = .initial) : Twins b B b p where
  stage := hs
  sound := hb
  sound' := hp
  live := hs.live
  live' := hlive
  twin x hx := by
    have hstale' : Container.basisIsStale (p.node x) p.generation = true := by
      simp [Container.basisIsStale, hnew x hx, Geometry.initial, Extent.isUndefined,
        Extent.isDefined]
    refine ⟨.refl _, hcore x hx, id, ⟨(hstale x hx).trans hstale'.symm, fun hno => ?_, Or.inl ?_⟩,
      ⟨Or.inr ⟨?_, rfl, Or.inl ?_⟩, Or.inr ⟨?_, rfl, rfl⟩⟩, Or.inl ⟨?_, ?_, ?_⟩⟩
    · rw [hstale x hx] at hno
      cases hno
    all_goals simp [hnew x hx, Geometry.initial, Extent.isUndefined, Extent.isDefined]
  inner x hx hne := by
    rw [hnew x hx] at hne
    exact absurd rfl hne

end Pass

namespace Tree

variable {s t : Tree α} {root x : NodeId} {n m : Node α} {v w : Viewport α}
  {r : Request α} {B : Set NodeId} {u : Tree α} {k : Node α}

theorem runPass_asked (t : Tree α) (root : NodeId) (v : Viewport α) (r : Request α) :
    (t.runPass root v r .initial).trail = (t.rootVisit root r).2.trail ∧
      (t.runPass root v r .initial).stats = (t.rootVisit root r).2.stats := by
  change (if (t.rootVisit root r).1 then _ else _ : Pass α).trail = _ ∧
    (if (t.rootVisit root r).1 then _ else _ : Pass α).stats = _
  split <;> exact ⟨rfl, rfl⟩

theorem runPass_gridless {q : Pass α} (hq : t.rootVisit root r = (true, q))
    (hgrid : (q.node root).HasNoGrid) :
    t.runPass root v r .initial =
      q.redraw root fun n => n.placed n.geometry.direction v.width v.height v.width := by
  have hrun : t.runPass root v r .initial =
      let answer := t.rootVisit root r
      let p := answer.2.redraw root fun n => n.placed n.geometry.direction v.width v.height v.width
      if answer.1 then { p with tree := p.tree.snap (answer.2.node root).config.scale root 0 }
      else answer.2 := rfl
  rw [hrun, hq]
  dsimp only
  rw [if_pos rfl, snap, if_pos (show (_ : Bool) = true from hgrid)]

theorem runPass_along
    (ht : Pass.Twins (Pass.start s .initial) B (Pass.start s .initial) (Pass.start t .initial))
    (hx : root ∈ B) (hg : s.Grounded root)
    (hblank : ((Pass.start t .initial).node root).IsBlank)
    (hgrid : ((Pass.start t .initial).node root).HasNoGrid) (hr : r.performLayout = true)
    (hq : Pass.Quiet (Pass.start s .initial) B (s.runPass root v r .initial)) :
    Pass.Twins (Pass.start s .initial) B (s.runPass root v r .initial)
        (t.runPass root v r .initial) ∧
      Pass.Boxed root (s.runPass root v r .initial) (t.runPass root v r .initial) ∧
      Pass.Inner (Pass.start s .initial) root (s.runPass root v r .initial)
        (t.runPass root v r .initial) := by
  obtain ⟨k, hk, -, hleft, hright⟩ := ht.depth ⟨hx, hg.unfold_slots⟩
  have hshown := Pass.visit_shown ht.sound (ht.left.grounded hx hk) hr s.slots.size
  have hshown' := Pass.visit_shown ht.sound' (ht.right.grounded hx hk) hr t.slots.size
  obtain ⟨htrail, hstats⟩ := runPass_asked s root v r
  have hq' : Pass.Quiet (Pass.start s .initial) B
      (Pass.visit (s.slots.size + 1) root r (Pass.start s .initial)).2 :=
    ⟨htrail ▸ hq.forgotten, hstats ▸ hq.room⟩
  obtain ⟨hsame, halong, hmeasured⟩ := Pass.visit_along (Pass.start s .initial) B k
    (show k < s.slots.size + 1 from hleft) (show k < t.slots.size + 1 from hright) ⟨hx, hk⟩ ht hq'
  have hcomputed : (Pass.visit (t.slots.size + 1) root r (Pass.start t .initial)).1 = true := by
    rw [Pass.visit_of_forgotten (Pass.node_eq (ht.live' root hx))]
    refine Node.recalled?_eq_none.mp ((hblank.refreshed _ _).recalled? ?_ r)
    rw [Node.refreshed_core, (ht.twin root hx).right]
    exact ht.stage.unmeasured root hx
  obtain ⟨hsize, hedges, hinner⟩ := halong.twins.shown hx hshown hshown' hmeasured
  generalize hp : Pass.visit _ root r _ = answer at *
  generalize hp' : Pass.visit _ root r _ = answer' at *
  obtain ⟨computed, p⟩ := answer
  obtain ⟨computed', p'⟩ := answer'
  obtain rfl : computed' = true := hcomputed
  obtain rfl : computed = true := hsame
  have hcore := (halong.twins.twin root hx)
  have hscale : (p.node root).HasNoGrid ∧ (p'.node root).HasNoGrid := by
    unfold Node.HasNoGrid at hgrid ⊢
    rw [hcore.left, hcore.right]
    rw [(ht.twin root hx).right] at hgrid
    exact ⟨hgrid, hgrid⟩
  rw [runPass_gridless hp hscale.1, runPass_gridless hp' hscale.2]
  obtain ⟨hplace, hsides⟩ := halong.twins.place (h := k) hx
    (f := fun n => n.geometry.direction) hedges.1 v.width v.height v.width
  exact ⟨hplace.twins, ⟨hsides, hplace.at hx hsize, hplace.at hx hedges⟩,
    hplace.keeps.inner ht.stage.toGround hx hinner⟩

/-- Nothing that `root` reaches was ever laid out, is measured, aligned to a baseline or listed by a
node that does not own it. -/
structure Pristine (t : Tree α) (root : NodeId) : Prop where
  untouched : ∀ x n, t.Reaches root x → t.find? x = some n → n.geometry = .initial
  unmeasured : ∀ x n, t.Reaches root x → t.find? x = some n → n.measure = none
  alignItems : ∀ x n, t.Reaches root x → t.find? x = some n → n.style.alignItems ≠ .baseline
  alignSelf : ∀ x n, t.Reaches root x → t.find? x = some n → n.style.alignSelf ≠ .baseline
  unshared : ∀ x c, t.Reaches root x → c ∈ t.childrenOf x → t.ownerOf c = some x

/-- What `root` reaches in `t` is in `s` too, with at most the marks of earlier layouts on it. -/
def Worn (t s : Tree α) (root : NodeId) : Prop :=
  ∀ x n, t.Reaches root x → t.find? x = some n →
    ∃ m, s.find? x = some m ∧ Node.Worn (s.generation + 1) n m

theorem Pristine.worn (hp : t.Pristine root) : t.Worn t root := by
  intro x n hx hn
  refine ⟨n, hn, .refl n, fun _ => ?_, ?_⟩
  · rw [Node.IsBlank, hp.untouched x n hx hn]
    exact ⟨rfl, rfl⟩
  · simp [Container.basisIsStale, hp.untouched x n hx hn, Geometry.initial, Extent.isUndefined,
      Extent.isDefined]

theorem node_primed (hm : s.find? x = some m) (root : NodeId) :
    ∃ size, (Pass.start (s.primed root) .initial).node x = { m with resolvedSize := size } := by
  by_cases hx : x = root
  · subst hx
    exact ⟨_, by rw [Pass.node, Pass.start, find?_primed_root hm]; rfl⟩
  · exact ⟨_, by rw [Pass.node, Pass.start, find?_primed_other hx, hm]; rfl⟩

omit [Scalar α] in
theorem reached_live (ht : t.Sound) (hl : t.Live root) (hx : t.Reaches root x) : t.Live x := by
  induction hx with
  | refl => exact hl
  | tail _ hc _ => exact ht.arena.accounted.live hc

section

variable (hw : t.Worn s root) (ht : t.Sound) (hl : t.Live root)

include hw ht hl

theorem Worn.primed (hx : t.Reaches root x) : ∃ n, t.find? x = some n ∧ (s.primed root).Live x ∧
      Node.Worn (s.generation + 1) n ((Pass.start (s.primed root) .initial).node x) := by
  obtain ⟨n, hn⟩ := reached_live ht hl hx
  obtain ⟨m, hm, hworn⟩ := hw x n hx hn
  obtain ⟨size, hnode⟩ := node_primed hm root
  refine ⟨n, hn, ((primed_shape s root).live x).mpr ⟨m, hm⟩, ?_⟩
  rw [hnode]
  exact ⟨hworn.core.trans rfl, hworn.dirty, hworn.stale⟩

theorem Worn.children (hx : t.Reaches root x) :
    (Pass.start (s.primed root) .initial).children x = t.childrenOf x := by
  obtain ⟨n, hn, -, hworn⟩ := hw.primed ht hl hx
  rw [Pass.children, hworn.core, childrenOf_eq hn]

theorem Worn.below (hx : Relation.TransGen (fun p c => c ∈ t.childrenOf p) root x) :
    Relation.TransGen (fun p c => c ∈ (Pass.start (s.primed root) .initial).children p) root x := by
  induction hx with
  | single hc =>
    refine .single ?_
    rwa [hw.children ht hl .refl]
  | tail hr hc ih =>
    refine ih.tail ?_
    rwa [hw.children ht hl hr.to_reflTransGen]

end

theorem Pristine.stage (hp : t.Pristine root) (ht : t.Sound) (hl : t.Live root)
    (hw : t.Worn s root) :
    Pass.Stage (Pass.start (s.primed root) .initial) {x | t.Reaches root x} := by
  have hread := fun x hx => hw.primed ht hl (x := x) hx
  have hchildren := fun x hx => hw.children ht hl (x := x) hx
  refine ⟨⟨fun x hx => ?_, fun x hx c hc => ?_, fun x hx c hc => ?_⟩, fun x hx => ?_,
    fun x hx => ?_, fun x hx => ?_, fun x hx => ?_⟩
  · exact (hread x hx).choose_spec.2.1
  · rw [hchildren x hx] at hc
    exact hx.tail hc
  · rw [hchildren x hx] at hc
    obtain ⟨n, hn, -, hworn⟩ := hread c (hx.tail hc)
    rw [hworn.core, ← hp.unshared x c hx hc, ownerOf_eq hn]
  all_goals obtain ⟨n, hn, -, hworn⟩ := hread x hx
  · rw [hworn.core]
    exact hp.unmeasured x n hx hn
  · rw [hworn.core]
    exact hp.alignItems x n hx hn
  · rw [hworn.core]
    exact hp.alignSelf x n hx hn
  · exact hworn.dirty

theorem Pristine.twins (hp : t.Pristine root) (ht : t.Sound) (hl : t.Live root) (hs : s.Sound)
    (hw : t.Worn s root) :
    Pass.Twins (Pass.start (s.primed root) .initial) {x | t.Reaches root x}
      (Pass.start (s.primed root) .initial) (Pass.start (t.primed root) .initial) := by
  refine (hp.stage ht hl hw).twins (hs.primed root) (ht.primed root)
    (fun x hx => ((primed_shape t root).live x).mpr (reached_live ht hl hx)) (fun x hx => ?_)
    (fun x hx => ?_) (fun x hx => ?_)
  · obtain ⟨n, hn, -, hworn⟩ := hw.primed ht hl hx
    obtain ⟨n', hn', -, hworn'⟩ := hp.worn.primed ht hl hx
    obtain rfl := Option.some.inj (hn.symm.trans hn')
    exact hworn.core.symm.trans hworn'.core
  · obtain ⟨n, -, -, hworn⟩ := hw.primed ht hl hx
    exact hworn.stale
  · obtain ⟨n, hn⟩ := reached_live ht hl hx
    obtain ⟨size, hnode⟩ := node_primed hn root
    rw [hnode]
    exact hp.untouched x n hx hn

theorem Settled.find?_reached (hg : t.Grounded root) (ht : t.Sound)
    (hs : Settled (t.laidOut root v r) u root)
    (hx : (t.runPass root v r .initial).tree.Reaches root x)
    (hk : (t.runPass root v r .initial).tree.find? x = some k) :
    ∃ matters, u.find? x = some { k with
      isDirty := false
      geometry := { k.geometry with legacyStretchMatters := matters } } := by
  have hclean : (t.laidOut root v r).find? x = some { k with isDirty := false } :=
    (find?_clean (runPass_grounded ht hg) hk 0).2 hx
  by_cases hroot : x = root
  · subst hroot
    exact hs.find?_root hclean
  · exact ⟨k.geometry.legacyStretchMatters, (hs.find?_other hroot).trans hclean⟩

theorem Pristine.outcome (hp : t.Pristine root) (ht : t.Sound) (hg : t.Grounded root)
    (hn : t.find? root = some n) (hgrid : n.HasNoGrid) (hs : s.Sound) (hgs : s.Grounded root)
    (hw : t.Worn s root) (hr : r.performLayout = true)
    (hq : Pass.Quiet (Pass.start (s.primed root) .initial) {x | t.Reaches root x}
      ((s.primed root).runPass root v r .initial))
    {f : Tree α} (hu : Settled ((s.primed root).laidOut root v r) u root)
    (hf : Settled ((t.primed root).laidOut root v r) f root) (hx : t.Reaches root x)
    (hk : t.find? x = some k) :
    ∃ m m', u.find? x = some m ∧ f.find? x = some m' ∧ m.geometry.frame = m'.geometry.frame ∧
      Node.SameCore k m' ∧ m'.isDirty = false ∧
      (m'.geometry.flexBasis.isUndefined = true ∨
        m'.geometry.basisGeneration = t.generation + 1) := by
  have hl : t.Live root := ⟨n, hn⟩
  obtain ⟨size, hroot⟩ := node_primed hn root
  obtain ⟨htwins, hbox, hinner⟩ := runPass_along (hp.twins ht hl hs hw) .refl
    (primed_grounded.mpr hgs) (by
      rw [Node.IsBlank, hroot, hp.untouched root n .refl hn]
      exact ⟨rfl, rfl⟩) (by rw [hroot]; exact hgrid) hr hq
  have hgen : ((t.primed root).runPass root v r .initial).generation = t.generation + 1 :=
    (runPass_moves
      ((ht.primed root).ready_univ (primed_grounded.mpr hg).live .initial)).generation.1
  have hreach : ∀ {q : Pass α}, Pass.Retains (Pass.start (s.primed root) .initial)
      {x | t.Reaches root x} q → q.tree.Reaches root x := by
    refine fun hq => (reaches_agree (P := fun x => t.Reaches root x) (fun y hy => ?_)
      (fun _ _ hx hc => hx.tail hc) .refl).mpr hx
    rw [← Pass.children_eq (hq.live y hy), hq.children hy, hw.children ht hl hy]
  obtain ⟨matters, hm⟩ := hu.find?_reached (primed_grounded.mpr hgs) (hs.primed root)
    (hreach htwins.left) (Pass.node_eq (htwins.live x hx))
  obtain ⟨matters', hm'⟩ := hf.find?_reached (primed_grounded.mpr hg) (ht.primed root)
    (hreach htwins.right) (Pass.node_eq (htwins.live' x hx))
  clear hreach hq hu hf
  generalize (s.primed root).runPass root v r .initial = q at hm htwins hbox hinner
  generalize (t.primed root).runPass root v r .initial = q' at hm' htwins hbox hinner hgen
  have htwin := htwins.twin x hx
  obtain ⟨k', hk', -, hworn⟩ := hw.primed ht hl hx
  obtain rfl := Option.some.inj (hk.symm.trans hk')
  refine ⟨_, _, hm, hm', ?_, (hworn.core.trans htwin.right).trans rfl, rfl,
    hgen ▸ htwin.bases.right⟩
  rcases Relation.reflTransGen_iff_eq_or_transGen.mp hx with rfl | hbelow
  · exact hbox.frame
  · exact (hinner x (hw.below ht hl hbelow)).frame

theorem Pristine.worn_of_settled (hp : t.Pristine root) (h : t.Reachable) (hg : t.Grounded root)
    (hn : t.find? root = some n) (hgrid : n.HasNoGrid) {stats : Stats}
    (hrun : ∀ limits, (Edit.calculateLayout root v limits).apply t = (.ok stats, s))
    (hs : Settled ((t.primed root).laidOut root v (rootRequest n.resolveSize v)) s root) :
    t.Worn s root := by
  intro x k hx hk
  have hl : t.Live root := ⟨n, hn⟩
  have hgen := Edit.calculateLayout_generation h.sound hg hn v .initial
  rw [hrun] at hgen
  have hblank : ∀ y ∈ {x | t.Reaches root x},
      ((Pass.start (t.primed root) .initial).node y).IsBlank := by
    intro y hy
    obtain ⟨l, hl⟩ := reached_live h.sound hl hy
    obtain ⟨size, hnode⟩ := node_primed hl root
    rw [Node.IsBlank, hnode, hp.untouched y l hy hl]
    exact ⟨rfl, rfl⟩
  obtain ⟨m, m', hm, hm', -, hcore, hclean, hbasis⟩ := hp.outcome h.sound hg hn hgrid h.sound hg
    hp.worn rfl ((hp.stage h.sound hl hp.worn).quiet_of_blank hblank _) hs hs hx hk
  refine ⟨m', hm', hcore, fun hd => ?_, ?_⟩
  · rw [hclean] at hd
    cases hd
  · exact Node.stale_of_next hgen hbasis

/-- No answer that a layout of `root` takes from memory stood there when it started. -/
def answersAnew (s : Tree α) (root : NodeId) (m : Node α) (v : Viewport α) : Bool :=
  ((s.primed root).runPass root v (rootRequest m.resolveSize v) .initial).trail.all fun visit =>
    visit.source == .computed || (s.find? visit.node).all fun k =>
      ((k.refreshed (s.generation + 1) visit.request.ownerDirection).remembered?
        visit.request).isNone

theorem answersAnew_quiet (ht : t.Sound) (hl : t.Live root) (hw : t.Worn s root)
    (hanew : s.answersAnew root m v = true)
    (hroom : ((s.primed root).runPass root v (rootRequest m.resolveSize v)
      .initial).stats.maxMeasureCache < measurementCapacity) :
    Pass.Quiet (Pass.start (s.primed root) .initial) {x | t.Reaches root x}
      ((s.primed root).runPass root v (rootRequest m.resolveSize v) .initial) := by
  refine ⟨fun visit hvisit hx hsource => ?_, Or.inl hroom⟩
  obtain ⟨n, hn⟩ := reached_live ht hl hx
  obtain ⟨k, hk, -⟩ := hw visit.node n hx hn
  obtain ⟨size, hnode⟩ := node_primed hk root
  rw [hnode, Node.remembered?_resized]
  have hone := List.all_eq_true.mp hanew visit hvisit
  simp only [hk, hsource, Option.all_some, beq_iff_eq, Bool.or_eq_true, false_or,
    Option.isNone_iff_eq_none] at hone
  exact hone

def frameOf (t : Tree α) (x : NodeId) :
    Option (Offsets α × Size (Extent α) × Insets α × Insets α × Insets α) :=
  (t.find? x).map fun n => n.geometry.frame

omit [Scalar α] in
theorem Settled.frameOf (hs : Settled t s root) (hx : t.Live x) : s.frameOf x = t.frameOf x := by
  by_cases hroot : x = root
  · subst hroot
    obtain ⟨m, hm⟩ := hx
    obtain ⟨matters, hs⟩ := hs.find?_root hm
    rw [Tree.frameOf, Tree.frameOf, hs, hm]
    rfl
  · rw [Tree.frameOf, Tree.frameOf, hs.find?_other hroot]

theorem frameOf_laidOut_recalled (hn : t.find? root = some n) {size : Size (Extent α)}
    (hr : (n.refreshed t.generation r.ownerDirection).recalled? r = some size)
    (hl : r.performLayout = true) (x : NodeId) :
    (t.laidOut root v r).frameOf x =
      if x = root then some (Geometry.frame { n.geometry with size := size }) else t.frameOf x := by
  obtain ⟨hfound, hfind⟩ := Pass.visit_recalled (p := Pass.start t .initial) hn hr hl t.slots.size
  rw [← runPass_recalled (v := v) hfound] at hfind
  have hclean : (t.laidOut root v r).frameOf x =
      (t.runPass root v r .initial).tree.frameOf x :=
    map_find?_sweep _ _ (by intros; rfl) _ _ _ _
  rw [hclean, frameOf, hfind x]
  split
  · unfold Node.refreshed
    split <;> rfl
  · rfl

/-- A second layout at another size. It gives every node the frame that it gets if it is laid out at
that size at once, as long as it takes no answer from the first layout and no memory runs full. But
if the root finds an answer, all frames stay those of the first layout, and only the root takes the
size it finds. -/
theorem relayout_frames (h : t.Reachable) (hg : t.Grounded root) (hn : t.find? root = some n)
    (hgrid : n.HasNoGrid) (hp : t.Pristine root) (v w : Viewport α) :
    ∃ stats s stats' u stats'' f m,
      (∀ limits, (Edit.calculateLayout root v limits).apply t = (.ok stats, s)) ∧
      (∀ limits, (Edit.calculateLayout root w limits).apply s = (.ok stats', u)) ∧
      (∀ limits, (Edit.calculateLayout root w limits).apply t = (.ok stats'', f)) ∧
      s.find? root = some m ∧
      (s.answersAnew root m w = true → stats'.maxMeasureCache < measurementCapacity →
        ∀ x, t.Reaches root x → u.frameOf x = f.frameOf x) ∧
      ∀ size, (m.resolveSize.refreshed (s.generation + 1) w.direction).recalled?
          (rootRequest m.resolveSize w) = some size →
        ∀ x, t.Reaches root x → u.frameOf x =
          if x = root then some (Geometry.frame { m.geometry with size := size })
          else s.frameOf x := by
  have ht := h.sound
  have hl : t.Live root := ⟨n, hn⟩
  obtain ⟨s, hrun, hs, hsettled⟩ := Edit.calculateLayout_run ht hg hn v
  have hgs : s.Grounded root := hsettled.grounded ht hg
  have hw : t.Worn s root := hp.worn_of_settled h hg hn hgrid hrun hsettled
  obtain ⟨m, hm, hcore, -⟩ := hw root n .refl hn
  obtain ⟨u, hrun', -, hsettled'⟩ := Edit.calculateLayout_run hs hgs hm w
  obtain ⟨f, hrun'', -, hsettled''⟩ := Edit.calculateLayout_run ht hg hn w
  refine ⟨_, s, _, u, _, f, m, hrun, hrun', hrun'', hm, fun hanew hroom x hx => ?_,
    fun size hsize x hx => ?_⟩
  · have hkin : Node.Kin n m := hcore.kin
    obtain ⟨k, hk⟩ := reached_live ht hl hx
    rw [← hkin.rootRequest w] at hsettled''
    obtain ⟨l, l', hl, hl', hframe, -⟩ := hp.outcome ht hg hn hgrid hs hgs hw rfl
      (answersAnew_quiet ht hl hw hanew hroom) hsettled' hsettled'' hx hk
    simp only [frameOf, hl, hl', Option.map_some, hframe]
  · obtain ⟨k, hk⟩ := reached_live ht hl hx
    obtain ⟨l, hfound, -⟩ := hw x k hx hk
    rw [hsettled'.frameOf (laidOut_primed_live hs ⟨m, hm⟩ ⟨l, hfound⟩),
      frameOf_laidOut_recalled (r := rootRequest m.resolveSize w) (find?_primed_root hm) hsize rfl]
    split
    · rfl
    · rename_i hne
      rw [frameOf, find?_primed_other hne]
      rfl

theorem Pristine.of_ids (ht : t.Sound) (hl : t.Live root)
    (hnew : ∀ x ∈ t.ids, (t.find? x).map Node.geometry = some .initial)
    (hplain : ∀ x ∈ t.ids, (t.find? x).all fun n => n.measure.isNone &&
      n.style.alignItems != .baseline && n.style.alignSelf != .baseline)
    (howned : ∀ x ∈ t.ids, ∀ c ∈ t.childrenOf x, t.ownerOf c = some x) : t.Pristine root := by
  have hids : ∀ x, t.Reaches root x → x ∈ t.ids := fun x hx => mem_ids.mpr (reached_live ht hl hx)
  refine ⟨fun x n hx hn => ?_, fun x n hx hn => ?_, fun x n hx hn => ?_, fun x n hx hn => ?_,
    fun x c hx hc => howned x (hids x hx) c hc⟩
  · simpa [hn] using hnew x (hids x hx)
  all_goals
    have hall := hplain x (hids x hx)
    simp only [hn, Option.all_some, Bool.and_eq_true, Option.isNone_iff_eq_none, bne_iff_ne] at hall
    simp [hall]

/-- A root with a child of half its size, and a child of that one that fills it. -/
def halved : Tree Float32 :=
  (Tree.empty gridless).after [.newNode none, .newNode none, .newNode none,
    .addChild ⟨1, 1⟩ ⟨2, 1⟩, .addChild ⟨2, 1⟩ ⟨3, 1⟩,
    .updateStyle ⟨2, 1⟩ fun s => { s with size := ⟨.percent 50, .percent 50⟩ },
    .updateStyle ⟨3, 1⟩ fun s => { s with flexGrow := .known 1 }]

theorem halved_reachable : halved.Reachable :=
  Reachable.after (.empty rfl) (by simp [Call.Hookless, Call.Returns])

theorem halved_grounded : halved.Grounded ⟨1, 1⟩ := ⟨3, by decide +kernel⟩

theorem halved_ids : halved.ids = [⟨1, 1⟩, ⟨2, 1⟩, ⟨3, 1⟩] := by decide +kernel

theorem halved_live : halved.Live ⟨1, 1⟩ := mem_ids.mp (by simp [halved_ids])

theorem halved_pristine : halved.Pristine ⟨1, 1⟩ := by
  refine .of_ids halved_reachable.sound halved_live ?_ (by decide +kernel) (by decide +kernel)
  simp only [halved_ids, List.forall_mem_cons, List.not_mem_nil, false_implies, implies_true,
    and_true]
  exact ⟨rfl, rfl, rfl⟩

theorem relayout_frames_halved :
    halved.Reachable ∧ halved.Grounded ⟨1, 1⟩ ∧ halved.Pristine ⟨1, 1⟩ ∧
    ∃ stats s stats' u stats'' f,
      (∀ limits, (Edit.calculateLayout ⟨1, 1⟩ ⟨.known 100, .known 100, .ltr⟩ limits).apply halved =
        (.ok stats, s)) ∧
      (∀ limits, (Edit.calculateLayout ⟨1, 1⟩ ⟨.known 200, .known 200, .ltr⟩ limits).apply s =
        (.ok stats', u)) ∧
      (∀ limits, (Edit.calculateLayout ⟨1, 1⟩ ⟨.known 200, .known 200, .ltr⟩ limits).apply halved =
        (.ok stats'', f)) ∧
      ∀ x, halved.Reaches ⟨1, 1⟩ x → u.frameOf x = f.frameOf x := by
  obtain ⟨n, hn⟩ := halved_live
  have hgrid : (halved.find? ⟨1, 1⟩).all fun n => n.config.scale == 0 := by decide +kernel
  rw [hn] at hgrid
  obtain ⟨stats, s, stats', u, stats'', f, m, hrun, hrun', hrun'', hm, hsame, -⟩ :=
    relayout_frames halved_reachable halved_grounded hn hgrid halved_pristine
      ⟨.known 100, .known 100, .ltr⟩ ⟨.known 200, .known 200, .ltr⟩
  refine ⟨halved_reachable, halved_grounded, halved_pristine, stats, s, stats', u, stats'', f, hrun,
    hrun', hrun'', hsame ?_ ?_⟩
  · have hanew : let s := ((Edit.calculateLayout ⟨1, 1⟩ ⟨.known 100, .known 100, .ltr⟩
        .initial).apply halved).2
      (s.find? ⟨1, 1⟩).all fun m => s.answersAnew ⟨1, 1⟩ m ⟨.known 200, .known 200, .ltr⟩ := by
      decide +kernel
    simpa only [hrun, hm, Option.all_some] using hanew
  · have hroom : ((Edit.calculateLayout ⟨1, 1⟩ ⟨.known 200, .known 200, .ltr⟩ .initial).apply
        ((Edit.calculateLayout ⟨1, 1⟩ ⟨.known 100, .known 100, .ltr⟩ .initial).apply
          halved).2).1.toOption.all fun stats => stats.maxMeasureCache < measurementCapacity := by
      decide +kernel
    simpa [hrun, hrun', Except.toOption] using hroom

/-- A box of fixed size whose paddings are a tenth of what it stands in. -/
def padded : Tree Float32 :=
  (Tree.empty gridless).after [.newNode none,
    .updateStyle ⟨1, 1⟩ fun s => { s with
      size := ⟨.points 100, .points 100⟩
      padding := .const (.percent 10) }]

theorem padded_reachable : padded.Reachable :=
  Reachable.after (.empty rfl) (by simp [Call.Hookless, Call.Returns])

theorem padded_ids : padded.ids = [⟨1, 1⟩] := by decide +kernel

theorem padded_pristine : padded.Pristine ⟨1, 1⟩ := by
  refine .of_ids padded_reachable.sound (mem_ids.mp (by simp [padded_ids])) ?_ (by decide +kernel)
    (by decide +kernel)
  simp only [padded_ids, List.mem_singleton, forall_eq]
  rfl

/-- The size offered to the box is the same in both layouts. It keeps the paddings that it got in
the first one. -/
theorem relayout_keeps_old_padding :
    padded.Reachable ∧ padded.Grounded ⟨1, 1⟩ ∧ padded.Pristine ⟨1, 1⟩ ∧
    ((padded.after [.calculateLayout ⟨1, 1⟩ ⟨.known 200, .known 200, .ltr⟩,
      .calculateLayout ⟨1, 1⟩ ⟨.known 400, .known 400, .ltr⟩]).find? ⟨1, 1⟩).map
        (·.geometry.padding.onEdge .ltr .left) = some (some 20) ∧
    ((padded.after [.calculateLayout ⟨1, 1⟩ ⟨.known 400, .known 400, .ltr⟩]).find? ⟨1, 1⟩).map
        (·.geometry.padding.onEdge .ltr .left) = some (some 40) :=
  ⟨padded_reachable, ⟨1, by decide +kernel⟩, padded_pristine, by decide +kernel, by decide +kernel⟩

end Tree

end Flexbox
