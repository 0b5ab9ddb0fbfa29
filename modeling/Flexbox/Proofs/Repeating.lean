import Flexbox.Proofs.Binary32
import Flexbox.Proofs.Denotation
import Flexbox.Proofs.Memory

namespace Flexbox

namespace Node

variable {α : Type} {n m k : Node α}

variable [Scalar α]

theorem Kin.resolveSize (h : Kin n m) : Kin n.resolveSize m.resolveSize := by
  rw [h]
  rfl

theorem Kin.rootRequest (h : Kin n m) (v : Viewport α) :
    Tree.rootRequest m.resolveSize v = Tree.rootRequest n.resolveSize v := by
  rw [h]
  rfl

/-- The node after a full layout that took its size from memory. -/
def recalling (n : Node α) (size : Size (Extent α)) (generation : UInt32) : Node α :=
  { n with
    geometry := { n.geometry with measured := size, size := size, generation := generation }
    hasNewLayout := true }

def HasNoGrid (n : Node α) : Prop := n.config.scale == 0

def measuredBy (n : Node α) (measure : Measure α) (r : Request α) : Size (Extent α) :=
  let content :=
    if r.width.mode == .exactly && r.height.mode == .exactly then ⟨0, 0⟩
    else measure.size (n.contentOffer .row r.width r.width.size)
      (n.contentOffer .column r.height r.width.size)
  let size := n.boundSize r (n.leafSize r content)
  ⟨.of size.width, .of size.height⟩

theorem Kin.recalled? (h : Kin n m) (hlast : m.geometry.lastLayout = n.geometry.lastLayout)
    (hlist : m.geometry.measurements = n.geometry.measurements) (r : Request α) :
    m.recalled? r = n.recalled? r := by
  have hmeasure : m.measure = n.measure := by rw [h]
  have hconfig : m.config = n.config := by rw [h]
  have hmargin : m.marginFor = n.marginFor := by rw [h]; rfl
  have hentry : m.geometry.entry? = n.geometry.entry? := by
    funext source
    cases source <;> simp [Geometry.entry?, hlast, hlist]
  unfold Node.recalled? remembered?
  simp only [hlast, hlist, hmeasure, hconfig, hmargin, hentry]

theorem refreshed_again (direction : Direction) {g : UInt32} (hclean : m.isDirty = false)
    (hdir : m.geometry.lastOwnerDirection = n.geometry.lastOwnerDirection)
    (hlast : m.geometry.lastLayout = (n.refreshed g direction).geometry.lastLayout)
    (hlist : m.geometry.measurements = (n.refreshed g direction).geometry.measurements)
    (g' : UInt32) :
    (m.refreshed g' direction).geometry.lastLayout = m.geometry.lastLayout ∧
      (m.refreshed g' direction).geometry.measurements = m.geometry.measurements := by
  unfold refreshed
  split
  · rename_i hout
    have hn : n.isOutdated g direction = true := by
      simp only [isOutdated, hclean, hdir, Bool.false_and, Bool.false_or] at hout
      simp [isOutdated, hout]
    rw [hlast, hlist]
    simp [refreshed, hn, Geometry.forget]
  · exact ⟨rfl, rfl⟩

theorem refreshed_kin (n : Node α) (g : UInt32) (direction : Direction) :
    Kin n (n.refreshed g direction) := by
  unfold refreshed
  split <;> rfl

def settled (n : Node α) (v : Viewport α) : Node α :=
  let placed := { n with geometry := n.placed n.geometry.direction v.width v.height v.width }
  if n.config.scale == 0 then placed else placed.snapped n.config.scale 0 0

theorem Kin.settled_box (h : Kin n m) (hd : m.geometry.direction = n.geometry.direction)
    (hs : m.geometry.size = n.geometry.size) (v : Viewport α) :
    (m.settled v).geometry.position = (n.settled v).geometry.position ∧
      (m.settled v).geometry.size = (n.settled v).geometry.size := by
  have hplace := h.placed_position n.geometry.direction v.width v.height v.width
  have hsize : (m.placed n.geometry.direction v.width v.height v.width).size =
      (n.placed n.geometry.direction v.width v.height v.width).size := hs
  have hconfig : m.config = n.config := by rw [h]
  have htype : m.nodeType = n.nodeType := by rw [h]
  unfold settled
  rw [hd, hconfig]
  split
  · exact ⟨hplace, hs⟩
  · simp only [snapped, hplace, hsize, htype, and_self]

end Node

/-- The request is within the tolerance of itself, as all requests with finite sizes are. -/
def Request.IsLikeItself {α : Type} [Scalar α] (r : Request α) : Prop :=
  r.width.size.near r.width.size ∧ r.height.size.near r.height.size

namespace Tree

variable {α γ : Type} {t s : Tree α} {root : NodeId}

def boxOf (t : Tree α) (id : NodeId) : Option (Offsets α × Size (Extent α)) :=
  (t.find? id).map fun n => (n.geometry.position, n.geometry.size)

theorem boxOf_update {id : NodeId} {f : Node α → Node α}
    (hf : ∀ n, (f n).geometry.position = n.geometry.position ∧
      (f n).geometry.size = n.geometry.size) : (t.update id f).boxOf = t.boxOf := by
  funext x
  exact map_find?_update (fun n _ => by rw [(hf n).1, (hf n).2]) x

theorem map_find?_sweep {β : Type} (change : γ → Node α → Node α) (down : γ → Node α → γ)
    {f : Node α → β} (hf : ∀ x n, f (change x n) = f n) (fuel : Nat) (x : γ) (id y : NodeId) :
    ((t.sweep change down fuel x id).find? y).map f = (t.find? y).map f :=
  sweep_induct (P := fun s => (s.find? y).map f = (t.find? y).map f)
    (fun _ _ _ _ _ _ => trivial)
    (fun _ x _ _ hs => (map_find?_update (fun n _ => hf x n) y).trans hs) fuel x trivial rfl

theorem find?_clean_root {n : Node α} (hn : t.find? root = some n) (spare : Nat) :
    (t.clean root spare).find? root = some { n with isDirty := false } := by
  unfold clean sweepAll
  rw [show t.slots.size + 1 + spare = t.slots.size + spare + 1 by omega, sweep]
  simp only [hn]
  refine List.foldlRecOn
    (motive := fun s : Tree α => s.find? root = some { n with isDirty := false })
    _ _ (by simp [hn]) fun s hs c _ => ?_
  refine sweep_induct (S := Set.univ)
    (P := fun s => s.find? root = some { n with isDirty := false })
    (fun _ _ _ _ _ _ => trivial) (fun s _ id _ hs => ?_) _ _ trivial hs
  rw [find?_update]
  split <;> simp [hs]

theorem boxOf_clean (t : Tree α) (root : NodeId) (spare : Nat) :
    (t.clean root spare).boxOf = t.boxOf := by
  funext x
  exact map_find?_sweep _ _ (by intros; rfl) _ _ _ _

end Tree

namespace Pass

variable {α : Type} [Scalar α] {S : Set NodeId} {p q : Pass α} {id x : NodeId} {n : Node α}
  {r : Request α} {measure : Measure α}

theorem visit_recalled (hn : p.tree.find? id = some n) {size : Size (Extent α)}
    (hr : (n.refreshed p.generation r.ownerDirection).recalled? r = some size)
    (hp : r.performLayout = true) (fuel : Nat) :
    (visit (fuel + 1) id r p).1 = false ∧ ∀ x, (visit (fuel + 1) id r p).2.tree.find? x =
      if x = id then some ((n.refreshed p.generation r.ownerDirection).recalling size p.generation)
      else p.tree.find? x := by
  obtain ⟨entry, he, rfl⟩ := Option.map_eq_some_iff.mp hr
  obtain ⟨source, hsource, hentry⟩ := Option.bind_eq_some_iff.mp he
  rw [visit_of_remembered hn hsource]
  refine ⟨rfl, fun x => ?_⟩
  simp only [restore, finish, hp, if_true, updateGeometry, Pass.update, Pass.count, Pass.record,
    Tree.find?_update, find?_refresh hn]
  split
  · simp [Node.recalling, Geometry.restore, hentry, refresh_generation]
  · rfl

theorem find?_computed {visit : Visitor α}
    (hn : ((p.record ⟨id, r, .computed⟩).layNode visit id r).tree.find? id = some n)
    (hp : r.performLayout = true) :
    ∃ m, ((p.compute visit id r).finish id r).tree.find? id = some m ∧
      m.geometry.direction = n.geometry.direction ∧
      m.geometry.size = n.geometry.measured ∧
      m.geometry.lastOwnerDirection = some r.ownerDirection ∧
      m.geometry.lastLayout = .ofOffers r.width r.height (n.geometry.measured.width.getD (-1))
        (n.geometry.measured.height.getD (-1)) := by
  unfold compute
  simp only [finish, hp, if_true, updateGeometry, Pass.update, Pass.count,
    Tree.find?_update_self, hn, Option.map_some]
  refine ⟨_, rfl, ?_⟩
  simp [Geometry.remember, hp]

theorem visit_computed (hready : Ready S p id) (hn : p.tree.find? id = some n)
    (hr : (n.refreshed p.generation r.ownerDirection).remembered? r = none)
    (hp : r.performLayout = true) (fuel : Nat) :
    (visit (fuel + 1) id r p).1 = true ∧ ∃ m, (visit (fuel + 1) id r p).2.tree.find? id = some m ∧
      m.geometry.lastOwnerDirection = some r.ownerDirection ∧
      m.geometry.lastLayout = .ofOffers r.width r.height (m.geometry.size.width.getD (-1))
        (m.geometry.size.height.getD (-1)) := by
  rw [visit_of_forgotten hn hr]
  have hrec : Moves S p ((p.refresh id r.ownerDirection).record ⟨id, r, .computed⟩) :=
    (refresh_moves hready.mem _).trans (Step.record _ hready.mem).moves
  have hlaid := hrec.trans (layNode_moves (fun id r p hp => visit_moves fuel r hp) r
    (hrec.ready hready).admitted)
  obtain ⟨k, hk⟩ := (hlaid.ready hready).live
  obtain ⟨m, hm, -, hsize, hdirection, hlast⟩ := find?_computed hk hp
  exact ⟨rfl, m, hm, hdirection, by rw [hlast, hsize]⟩

theorem layNode_leaf (visit : Visitor α) (hn : p.tree.find? id = some n)
    (hm : n.measure = some measure) :
    ∃ m, (p.layNode visit id r).tree.find? id = some m ∧
      m.geometry.direction = n.resolveDirection r.ownerDirection ∧
      m.geometry.measured = n.measuredBy measure r := by
  unfold layNode
  simp only [node, Pass.count, redraw, updateGeometry, Pass.update, Tree.find?_update_self, hn,
    Option.map_some, Option.getD_some, hm, measureLeaf, setMeasured, Pass.tell, Node.measuredBy]
  split
  · simp only [Tree.find?_update_self, hn, Option.map_some]
    exact ⟨_, rfl, rfl, rfl⟩
  · change ∃ m, Tree.find? (Tree.update _ id _) id = some m ∧ _
    rw [Tree.find?_update_self]
    change ∃ m, Option.map _ (Tree.find? (Tree.update _ id _) id) = some m ∧ _
    rw [Tree.find?_update_self, hn]
    exact ⟨_, rfl, rfl, rfl⟩

theorem visit_leaf (hn : p.tree.find? id = some n) (hm : n.measure = some measure)
    (hr : (n.refreshed p.generation r.ownerDirection).remembered? r = none)
    (hp : r.performLayout = true) (fuel : Nat) :
    ∃ m, (visit (fuel + 1) id r p).2.tree.find? id = some m ∧
      m.geometry.direction = n.resolveDirection r.ownerDirection ∧
      m.geometry.size = n.measuredBy measure r := by
  rw [visit_of_forgotten hn hr]
  have hk : ((p.refresh id r.ownerDirection).record ⟨id, r, .computed⟩).tree.find? id =
      some (n.refreshed p.generation r.ownerDirection) := by
    change (p.refresh id r.ownerDirection).tree.find? id = _
    rw [find?_refresh hn, if_pos rfl]
  have hcore := n.refreshed_kin p.generation r.ownerDirection
  obtain ⟨k, hlaid, hdirection, hsize⟩ := layNode_leaf
    (fun id r p => (visit fuel id r p).2) hk (by rw [hcore]; exact hm)
  obtain ⟨m, hfind, hd, hs, -⟩ := find?_computed hlaid hp
  refine ⟨m, hfind, ?_, ?_⟩
  · rw [hd, hdirection, hcore]
    rfl
  · rw [hs, hsize, hcore]
    rfl

end Pass

namespace Tree

variable {α : Type} [Scalar α] {t s : Tree α} {root : NodeId} {n m : Node α} {v : Viewport α}
  {r : Request α} {size : Size (Extent α)} {g : UInt32} {measure : Measure α} {x : NodeId}

theorem find?_snap (hn : t.find? x = some n) (scale : α) (root : NodeId) (spare : Nat) :
    ∃ position size, (t.snap scale root spare).find? x = some
      { n with geometry := { n.geometry with position := position, size := size } } ∧
      (scale == 0 → size = n.geometry.size) := by
  unfold snap
  split
  · exact ⟨n.geometry.position, n.geometry.size, hn, fun _ => rfl⟩
  · rename_i hscale
    have hkept := map_find?_sweep (t := t) (fun corner n => n.snapped scale corner.1 corner.2)
      (fun corner n => n.corner corner)
      (f := fun k => { k with geometry :=
        { k.geometry with position := n.geometry.position, size := n.geometry.size } })
      (fun _ _ => rfl) (t.slots.size + 1 + spare) (0, 0) root x
    rw [hn] at hkept
    obtain ⟨m, hm, hmn⟩ := Option.map_eq_some_iff.mp hkept
    refine ⟨m.geometry.position, m.geometry.size, ?_, fun h => absurd h hscale⟩
    rw [hm]
    exact congrArg (fun k : Node α => some { k with geometry :=
      { k.geometry with position := m.geometry.position, size := m.geometry.size } }) hmn

theorem runPass_recalled (h : (t.rootVisit root r).1 = false) :
    t.runPass root v r .initial = (t.rootVisit root r).2 := by
  unfold runPass
  change (if (t.rootVisit root r).1 then _ else _) = _
  rw [h]
  rfl

theorem runPass_computed (h : (t.rootVisit root r).1 = true)
    (hn : (t.rootVisit root r).2.tree.find? root = some n) :
    (t.runPass root v r .initial).tree = ((t.rootVisit root r).2.tree.update root fun k =>
      { k with geometry := k.placed k.geometry.direction v.width v.height v.width }).snap
        n.config.scale root 0 := by
  unfold runPass
  change (if (t.rootVisit root r).1 then _ else _ : Pass α).tree = _
  rw [h, if_pos rfl, ← Pass.node_of_find? hn]
  rfl

theorem laidOut_recalled (hn : t.find? root = some n)
    (hr : (n.refreshed t.generation r.ownerDirection).recalled? r = some size)
    (hp : r.performLayout = true) :
    (t.laidOut root v r).find? root = some
      { (n.refreshed t.generation r.ownerDirection).recalling size t.generation with
        isDirty := false } ∧
    ∀ x, x ≠ root → (t.laidOut root v r).boxOf x = t.boxOf x := by
  obtain ⟨hfound, hfind⟩ := Pass.visit_recalled (p := Pass.start t .initial) hn hr hp t.slots.size
  rw [← runPass_recalled (v := v) hfound] at hfind
  refine ⟨find?_clean_root ((hfind root).trans (if_pos rfl)) 0, fun x hx => ?_⟩
  rw [laidOut, boxOf_clean, boxOf, hfind x, if_neg hx]
  rfl

theorem laidOut_computed (ht : t.Sound) (hn : t.find? root = some n)
    (hr : (n.refreshed t.generation r.ownerDirection).remembered? r = none)
    (hp : r.performLayout = true) :
    ∃ m size, (t.laidOut root v r).find? root = some m ∧ m.isDirty = false ∧
      m.geometry.lastOwnerDirection = some r.ownerDirection ∧
      m.geometry.lastLayout = .ofOffers r.width r.height (size.width.getD (-1))
        (size.height.getD (-1)) ∧
      (m.HasNoGrid → m.geometry.size = size) := by
  obtain ⟨hfound, k, hk, hdirection, hlast⟩ := Pass.visit_computed (p := Pass.start t .initial)
    (ht.ready_univ ⟨n, hn⟩ _) hn hr hp t.slots.size
  have htree := runPass_computed (v := v) hfound hk
  generalize (t.rootVisit root r).2.tree = u at hk htree
  have hplaced : (u.update root fun k =>
      { k with geometry := k.placed k.geometry.direction v.width v.height v.width }).find? root =
      some { k with geometry := k.placed k.geometry.direction v.width v.height v.width } := by
    simp [hk]
  obtain ⟨position, size, hsnap, hsize⟩ := find?_snap hplaced k.config.scale root 0
  rw [← htree] at hsnap
  exact ⟨_, k.geometry.size, find?_clean_root hsnap 0, rfl, hdirection, hlast, hsize⟩

theorem laidOut_childless (ht : t.Sound) (hl : t.Live root) (hc : t.childrenOf root = [])
    (hx : t.Live x) (hne : x ≠ root) : (t.laidOut root v r).find? x = t.find? x := by
  have hregion : t.Region {x | x = root ∨ ¬ t.Live x} := by
    refine ⟨fun y hy c hcy => ?_, fun y hy => Or.inr hy⟩
    rcases hy with rfl | hy
    · rw [hc] at hcy
      cases hcy
    · rw [childrenOf_absent hy] at hcy
      cases hcy
  have hready : Pass.Ready {x | x = root ∨ ¬ t.Live x} (Pass.start t .initial) root :=
    ⟨ht, hregion, Or.inl rfl, hl⟩
  obtain ⟨q, hq, hmoves⟩ := laidOut_moves hready v r
  rw [← hq]
  exact hmoves.outside hready fun h => h.elim hne fun hn => hn hx

theorem laidOut_leaf (ht : t.Sound) (hn : t.find? root = some n) (hm : n.measure = some measure)
    (hr : (n.refreshed t.generation r.ownerDirection).remembered? r = none)
    (hp : r.performLayout = true) :
    ∃ m, Node.Kin n m ∧ m.geometry.direction = n.resolveDirection r.ownerDirection ∧
      m.geometry.size = n.measuredBy measure r ∧
      (t.laidOut root v r).boxOf root =
        some ((m.settled v).geometry.position, (m.settled v).geometry.size) := by
  have hl : t.Live root := ⟨n, hn⟩
  have hready := ht.ready_univ hl .initial
  obtain ⟨m, hfind, hdirection, hsize⟩ :=
    Pass.visit_leaf (p := Pass.start t .initial) hn hm hr hp t.slots.size
  obtain ⟨hfound, -⟩ := Pass.visit_computed hready hn hr hp t.slots.size
  have hmoves := Pass.visit_moves (t.slots.size + 1) r hready.admitted
  obtain ⟨m', hfind', hkin⟩ := hmoves.kin ht hn
  obtain rfl : m = m' := by
    rw [hfind] at hfind'
    exact Option.some.inj hfind'
  have hleaf : m.children = [] :=
    (hmoves.ready hready).sound.arena.leaf hfind (by rw [hkin]; simp [hm])
  refine ⟨m, hkin, hdirection, hsize, ?_⟩
  rw [laidOut, boxOf_clean, runPass_computed (v := v) hfound hfind]
  unfold snap Node.settled
  split
  · simp [boxOf, hfind]
  · simp [sweep, boxOf, hfind, hleaf]

omit [Scalar α] in
theorem Settled.find?_root (hs : Settled t s root) (hm : t.find? root = some m) :
    ∃ matters, s.find? root = some
      { m with geometry := { m.geometry with legacyStretchMatters := matters } } := by
  rcases hs with hs | ⟨differs, hs⟩
  · exact ⟨m.geometry.legacyStretchMatters, (hs root).trans hm⟩
  · refine ⟨differs, (hs root).trans ?_⟩
    simp [noted, hm]

omit [Scalar α] in
theorem Settled.boxOf (hs : Settled t s root) (x : NodeId) : s.boxOf x = t.boxOf x := by
  rcases hs with hs | ⟨differs, hs⟩
  · rw [Tree.boxOf, hs x]
    rfl
  · rw [Tree.boxOf, hs x]
    exact congrFun (boxOf_update (by intros; exact ⟨rfl, rfl⟩)) x

theorem boxOf_primed (t : Tree α) (root : NodeId) : (t.primed root).boxOf = t.boxOf :=
  boxOf_update (by intros; exact ⟨rfl, rfl⟩)

theorem find?_primed_root (hn : t.find? root = some n) :
    (t.primed root).find? root = some n.resolveSize := by
  change (t.update root Node.resolveSize).find? root = _
  rw [find?_update_self, hn]
  rfl

theorem laidOut_primed_live (ht : t.Sound) (hl : t.Live root) (hx : t.Live x) :
    ((t.primed root).laidOut root v r).Live x := by
  obtain ⟨q, hq, hmoves⟩ := laidOut_primed_moves ht hl v r
  rw [← hq]
  exact hmoves.live (ht.primed root) (((primed_shape t root).live _).mpr hx)

theorem calculateLayout_recalled (ht : t.Sound) (hg : t.Grounded root) (hn : t.find? root = some n)
    (hr : (n.resolveSize.refreshed (t.primed root).generation v.direction).recalled?
      (rootRequest n.resolveSize v) = some size) :
    ∃ stats s, (∀ limits, (Edit.calculateLayout root v limits).apply t = (.ok stats, s)) ∧
      s.boxOf root = some (n.geometry.position, size) ∧
      ∀ x, t.Live x → x ≠ root → s.boxOf x = t.boxOf x := by
  obtain ⟨s, hrun, -, hsettled⟩ := Edit.calculateLayout_run ht hg hn v
  obtain ⟨hroot, hother⟩ := laidOut_recalled (v := v) (r := rootRequest n.resolveSize v)
    (find?_primed_root hn) hr rfl
  have hl : t.Live root := ⟨n, hn⟩
  refine ⟨_, s, hrun, ?_, fun x hx hne => ?_⟩
  · rw [hsettled.boxOf, boxOf, hroot]
    have hposition : (n.resolveSize.refreshed (t.primed root).generation
        v.direction).geometry.position = n.geometry.position := by
      unfold Node.refreshed
      split <;> rfl
    exact congrArg (fun o => some (o, size)) hposition
  · rw [hsettled.boxOf, hother x hne, boxOf_primed]

/-- What a layout leaves on its root `n` once it is over: what it remembers does not get out of
date, and either it recalls the size it has, or it was computed and remembers the answer. -/
structure Rested (n m : Node α) (r : Request α) (generation : UInt32) : Prop where
  kin : Node.Kin n m
  stable : ∀ g, (m.resolveSize.refreshed g r.ownerDirection).recalled? r = m.recalled? r
  answer : m.recalled? r = some m.geometry.size ∨
    (n.resolveSize.refreshed generation r.ownerDirection).remembered? r = none ∧
    ∃ size : Size (Extent α), m.geometry.lastLayout = .ofOffers r.width r.height
        (size.width.getD (-1)) (size.height.getD (-1)) ∧ (m.HasNoGrid → m.geometry.size = size)

theorem recalled?_stable {direction : Direction}
    (h : (m.resolveSize.refreshed g direction).geometry.lastLayout = m.geometry.lastLayout ∧
      (m.resolveSize.refreshed g direction).geometry.measurements = m.geometry.measurements) :
    (m.resolveSize.refreshed g direction).recalled? r = m.recalled? r :=
  Node.Kin.recalled? (Node.Kin.trans (m := m.resolveSize) rfl (Node.refreshed_kin _ g direction))
    h.1 h.2 r

theorem rested_of_recalled (matters : Bool)
    (hr : (n.resolveSize.refreshed g r.ownerDirection).recalled? r = some size)
    (hm : m = { (n.resolveSize.refreshed g r.ownerDirection).recalling size g with
      isDirty := false }) :
    Rested n { m with geometry := { m.geometry with legacyStretchMatters := matters } } r g := by
  have hkin := n.resolveSize.refreshed_kin g r.ownerDirection
  have hdirection : (n.resolveSize.refreshed g r.ownerDirection).geometry.lastOwnerDirection =
      n.geometry.lastOwnerDirection := by
    unfold Node.refreshed
    split <;> rfl
  have hagain := Node.refreshed_again r.ownerDirection (n := n.resolveSize) (g := g)
    (m := Node.resolveSize { m with geometry :=
      { m.geometry with legacyStretchMatters := matters } })
    (by rw [hm]; rfl) (by rw [hm]; exact hdirection) (by rw [hm]; rfl) (by rw [hm]; rfl)
  refine ⟨?_, fun g' => recalled?_stable (hagain g'), Or.inl ?_⟩
  · subst hm
    exact Node.Kin.trans (m := n.resolveSize) rfl (hkin.trans rfl)
  · subst hm
    refine (Node.Kin.recalled? (n := n.resolveSize.refreshed g r.ownerDirection) ?_ ?_ ?_ _).trans
      hr
    all_goals rfl

theorem Settled.rested (ht : t.Sound) (hn : t.find? root = some n) (hp : r.performLayout = true)
    (hs : Settled ((t.primed root).laidOut root v r) s root) :
    ∃ m, s.find? root = some m ∧ Rested n m r (t.primed root).generation := by
  have hprimed := find?_primed_root hn
  have hready := (ht.primed root).ready_univ ⟨_, hprimed⟩ .initial
  obtain ⟨q, hq, hmoves⟩ := laidOut_moves hready v r
  obtain ⟨k, hk, hkin⟩ := hmoves.kin (ht.primed root) hprimed
  rw [hq] at hk
  obtain ⟨matters, hroot⟩ := hs.find?_root hk
  refine ⟨_, hroot, ?_⟩
  cases hr : (n.resolveSize.refreshed (t.primed root).generation r.ownerDirection).recalled? r with
  | some size =>
    obtain ⟨hfind, -⟩ := laidOut_recalled (v := v) hprimed hr hp
    exact rested_of_recalled matters hr (Option.some.inj (hk.symm.trans hfind))
  | none =>
    have hnone := Node.recalled?_eq_none.mp hr
    obtain ⟨k', size, hk', hclean, hdirection, hlast, hsize⟩ :=
      laidOut_computed (v := v) (ht.primed root) hprimed hnone hp
    obtain rfl := Option.some.inj (hk.symm.trans hk')
    have hfresh : ∀ g, Node.refreshed (Node.resolveSize { k with geometry :=
        { k.geometry with legacyStretchMatters := matters } }) g r.ownerDirection =
        Node.resolveSize { k with geometry :=
          { k.geometry with legacyStretchMatters := matters } } := by
      intro g
      refine if_neg ?_
      simp [Node.isOutdated, Node.resolveSize, hclean, hdirection]
    refine ⟨Node.Kin.trans (m := n.resolveSize) rfl (hkin.trans rfl), fun g => ?_,
      Or.inr ⟨hnone, size, hlast, hsize⟩⟩
    exact recalled?_stable (by rw [hfresh]; exact ⟨rfl, rfl⟩)

theorem Rested.measured (h : Rested n m r g) (hp : r.performLayout = true)
    (hself : r.IsLikeItself) (hr : m.recalled? r = none) :
    (n.resolveSize.refreshed g r.ownerDirection).remembered? r = none ∧
      ∃ measure, n.measure = some measure := by
  rcases h.answer with ha | ⟨hnone, size, hlast, -⟩
  · rw [hr] at ha
    cases ha
  refine ⟨hnone, Option.ne_none_iff_exists'.mp fun hm => ?_⟩
  have hmm : m.measure = none := by rw [h.kin]; exact hm
  have hforgotten := Node.recalled?_eq_none.mp hr
  simp [Node.remembered?, hmm, hlast, Measurement.matchesRequest, Measurement.ofOffers, hself.1,
    hself.2, hp] at hforgotten

theorem calculateLayout_leaf_again (ht : t.Sound) (hn : t.find? root = some n)
    (hrequest : r = rootRequest n.resolveSize v)
    (hs : Settled ((t.primed root).laidOut root v r) s root)
    (hsound : s.Sound) (hg : s.Grounded root) (hm : s.find? root = some m)
    (h : Rested n m r (t.primed root).generation) (hmeasure : n.measure = some measure)
    (hfirst : (n.resolveSize.refreshed (t.primed root).generation r.ownerDirection).remembered? r =
      none) (hr : m.recalled? r = none) :
    ∃ stats u, (∀ limits, (Edit.calculateLayout root v limits).apply s = (.ok stats, u)) ∧
      ∀ x, s.Live x → u.boxOf x = s.boxOf x := by
  have hsecond : (m.resolveSize.refreshed (s.primed root).generation r.ownerDirection).remembered?
      r = none := by
    rw [← Node.recalled?_eq_none, h.stable, hr]
  have hmm : m.measure = some measure := by rw [h.kin]; exact hmeasure
  have hp : r.performLayout = true := by rw [hrequest]; rfl
  obtain ⟨u, hrun, -, hu⟩ := Edit.calculateLayout_run hsound hg hm v
  rw [h.kin.rootRequest v, ← hrequest] at hu
  refine ⟨_, u, hrun, fun x hx => ?_⟩
  rw [hu.boxOf]
  by_cases hxr : x = root
  · subst hxr
    obtain ⟨k, hk, hkd, hks, hkbox⟩ := laidOut_leaf (v := v) (ht.primed x)
      (find?_primed_root hn) hmeasure hfirst hp
    obtain ⟨l, hl, hld, hls, hlbox⟩ := laidOut_leaf (v := v) (hsound.primed x)
      (find?_primed_root hm) hmm hsecond hp
    have hnm := h.kin.resolveSize
    have hkl : Node.Kin k l := hk.symm.trans (hnm.trans hl)
    have hdirection : l.geometry.direction = k.geometry.direction := by
      rw [hkd, hld, hnm]
      rfl
    have hsize : l.geometry.size = k.geometry.size := by
      rw [hks, hls, hnm]
      rfl
    rw [hs.boxOf, hkbox, hlbox,
      (hkl.settled_box hdirection hsize v).1, (hkl.settled_box hdirection hsize v).2]
  · have hleaf : (s.primed root).childrenOf root = [] := by
      rw [(primed_shape s root).children, childrenOf_eq hm]
      exact hsound.arena.leaf hm (by simp [hmm])
    rw [boxOf, laidOut_childless (hsound.primed root) ⟨_, find?_primed_root hm⟩ hleaf
      (((primed_shape s root).live x).mpr hx) hxr]
    exact congrFun (boxOf_primed s root) x

theorem calculateLayout_twice (ht : t.Sound) (hg : t.Grounded root) (hn : t.find? root = some n)
    (hself : (rootRequest n.resolveSize v).IsLikeItself) :
    ∃ stats s stats' u m,
      (∀ limits, (Edit.calculateLayout root v limits).apply t = (.ok stats, s)) ∧
      (∀ limits, (Edit.calculateLayout root v limits).apply s = (.ok stats', u)) ∧
      s.find? root = some m ∧
      Rested n m (rootRequest n.resolveSize v) (t.primed root).generation ∧
      (∀ x, s.Live x → x ≠ root → u.boxOf x = s.boxOf x) ∧
      u.boxOf root = some (m.geometry.position,
        (m.recalled? (rootRequest m.resolveSize v)).getD m.geometry.size) := by
  obtain ⟨s, hrun, hs, hsettled⟩ := Edit.calculateLayout_run ht hg hn v
  obtain ⟨m, hm, hrested⟩ := hsettled.rested ht hn rfl
  have hground : s.Grounded root := hsettled.grounded ht hg
  have hrequest := hrested.kin.rootRequest v
  cases hr : m.recalled? (rootRequest n.resolveSize v) with
  | some size =>
    have hrecalled : (m.resolveSize.refreshed (s.primed root).generation v.direction).recalled?
        (rootRequest m.resolveSize v) = some size := by
      rw [hrequest]
      exact (hrested.stable _).trans hr
    obtain ⟨stats', u, hagain, hroot, hother⟩ := calculateLayout_recalled hs hground hm hrecalled
    exact ⟨_, s, stats', u, m, hrun, hagain, hm, hrested, hother, by rw [hroot, hrequest, hr]; rfl⟩
  | none =>
    obtain ⟨hfirst, measure, hmeasure⟩ := hrested.measured rfl hself hr
    obtain ⟨stats', u, hagain, hsame⟩ := calculateLayout_leaf_again ht hn rfl hsettled hs hground
      hm hrested hmeasure hfirst hr
    refine ⟨_, s, stats', u, m, hrun, hagain, hm, hrested, fun x hx _ => hsame x hx, ?_⟩
    rw [hsame root ⟨m, hm⟩, hrequest, hr, boxOf, hm]
    rfl

omit [Scalar α] in
theorem same_boxes_iff (hm : s.find? root = some m) {u : Tree α}
    (hother : ∀ x, s.Live x → x ≠ root → u.boxOf x = s.boxOf x)
    (hroot : u.boxOf root = some (m.geometry.position, size)) :
    (∀ x, s.Live x → u.boxOf x = s.boxOf x) ↔ size = m.geometry.size := by
  have hbox : s.boxOf root = some (m.geometry.position, m.geometry.size) := by simp [boxOf, hm]
  constructor
  · intro hall
    have hsame := (hroot.symm.trans (hall root ⟨m, hm⟩)).trans hbox
    exact congrArg Prod.snd (Option.some.inj hsame)
  · rintro rfl x hx
    by_cases hxr : x = root
    · rw [hxr, hroot, hbox]
    · exact hother x hx hxr

theorem Rested.recalls_size (h : Rested n m r g) (hp : r.performLayout = true)
    (hself : r.IsLikeItself) (hmeasure : m.measure = none) (hgrid : m.HasNoGrid) {width height : α}
    (hsize : m.geometry.size = ⟨.known width, .known height⟩) (hw : Extent.of width = .known width)
    (hh : Extent.of height = .known height) : m.recalled? r = some m.geometry.size := by
  rcases h.answer with ha | ⟨-, size, hlast, hsame⟩
  · exact ha
  have hremembered : m.remembered? r = some .lastLayout := by
    simp [Node.remembered?, hmeasure, hlast, Measurement.matchesRequest, Measurement.ofOffers,
      hself.1, hself.2, hp]
  obtain rfl : size = ⟨.known width, .known height⟩ := (hsame hgrid).symm.trans hsize
  rw [Node.recalled?, hremembered, hsize]
  change some (Size.mk (Extent.of m.geometry.lastLayout.computedWidth)
    (Extent.of m.geometry.lastLayout.computedHeight)) = _
  rw [hlast]
  exact congrArg some (congrArg₂ Size.mk hw hh)

/-- Two layouts in a row, asked for within finite sizes. Nothing moves and only the root can change
its size, to what it recalls of the first layout. So all boxes stay as they are exactly if the root
recalls the size it has, as it does where no grid made that differ from what was solved. -/
theorem layout_again_same_boxes_iff {t : Tree Float32} {root : NodeId} {n : Node Float32}
    {v : Viewport Float32} (ht : t.Sound) (hg : t.Grounded root) (hn : t.find? root = some n)
    (hw : Binary32.Bounded (rootRequest n.resolveSize v).width.size)
    (hh : Binary32.Bounded (rootRequest n.resolveSize v).height.size) :
    ∃ stats s stats' u m,
      (∀ limits, (Edit.calculateLayout root v limits).apply t = (.ok stats, s)) ∧
      (∀ limits, (Edit.calculateLayout root v limits).apply s = (.ok stats', u)) ∧
      s.find? root = some m ∧
      (∀ x, s.Live x → x ≠ root → u.boxOf x = s.boxOf x) ∧
      u.boxOf root = some (m.geometry.position,
        (m.recalled? (rootRequest m.resolveSize v)).getD m.geometry.size) ∧
      ((∀ x, s.Live x → u.boxOf x = s.boxOf x) ↔
        (m.recalled? (rootRequest m.resolveSize v)).getD m.geometry.size = m.geometry.size) ∧
      (m.measure = none → m.HasNoGrid → ∀ width height, width.isFinite → height.isFinite →
        m.geometry.size = ⟨.known width, .known height⟩ →
        ∀ x, s.Live x → u.boxOf x = s.boxOf x) := by
  have hself : (rootRequest n.resolveSize v).IsLikeItself := ⟨hw.near_self, hh.near_self⟩
  obtain ⟨stats, s, stats', u, m, hfirst, hsecond, hm, hrested, hother, hroot⟩ :=
    calculateLayout_twice ht hg hn hself
  have hiff := same_boxes_iff hm hother hroot
  refine ⟨stats, s, stats', u, m, hfirst, hsecond, hm, hother, hroot, hiff, ?_⟩
  intro hmeasure hgrid width height hwidth hheight hsize
  rw [hiff, hrested.kin.rootRequest v, hrested.recalls_size rfl hself hmeasure hgrid hsize
    (Binary32.of_eq_known hwidth) (Binary32.of_eq_known hheight)]
  rfl

/-- A row whose width is off the grid, with a text and a container that holds another node. -/
def offGrid : Tree Float32 :=
  (Tree.empty .initial).after
    [.newNode none, .newNode none, .newNode none, .newNode none, .addChild ⟨1, 1⟩ ⟨2, 1⟩,
      .addChild ⟨1, 1⟩ ⟨3, 1⟩, .addChild ⟨3, 1⟩ ⟨4, 1⟩,
      .updateStyle ⟨1, 1⟩ fun s =>
        { s with size := ⟨.points 10.3, .points 10⟩, flexDirection := .row },
      .setMeasure ⟨2, 1⟩ ⟨none, fun _ _ => ⟨3.6, 4.2⟩⟩,
      .updateStyle ⟨3, 1⟩ fun s => { s with flexGrow := .known 1 },
      .updateStyle ⟨4, 1⟩ fun s => { s with size := ⟨.percent 50, .points 2.5⟩ }]

theorem offGrid_reachable : offGrid.Reachable :=
  Reachable.after (.empty rfl) (by simp [Call.Hookless, Call.Returns])

theorem offGrid_isSome : (offGrid.find? ⟨1, 1⟩).isSome := by decide +kernel

theorem layout_again_same_boxes_iff_off_grid :
    offGrid.Sound ∧ offGrid.Grounded ⟨1, 1⟩ ∧ offGrid.ids.length = 4 ∧ ∃ stats s stats' u m,
    (∀ limits, (Edit.calculateLayout ⟨1, 1⟩ ⟨.known 100, .known 100, .ltr⟩ limits).apply offGrid =
      (.ok stats, s)) ∧
    (∀ limits, (Edit.calculateLayout ⟨1, 1⟩ ⟨.known 100, .known 100, .ltr⟩ limits).apply s =
      (.ok stats', u)) ∧
    s.find? ⟨1, 1⟩ = some m ∧
    ((∀ x, s.Live x → u.boxOf x = s.boxOf x) ↔
      (m.recalled? (rootRequest m.resolveSize ⟨.known 100, .known 100, .ltr⟩)).getD
        m.geometry.size = m.geometry.size) := by
  have hs := offGrid_reachable.sound
  have hg : offGrid.Grounded ⟨1, 1⟩ := ⟨3, by decide +kernel⟩
  have hn : offGrid.find? ⟨1, 1⟩ = some ((offGrid.find? ⟨1, 1⟩).get offGrid_isSome) := by simp
  obtain ⟨stats, s, stats', u, m, hfirst, hsecond, hm, -, -, hiff, -⟩ :=
    layout_again_same_boxes_iff (v := ⟨.known 100, .known 100, .ltr⟩) hs hg hn
      (by decide +kernel) (by decide +kernel)
  exact ⟨hs, hg, by decide +kernel, stats, s, stats', u, m, hfirst, hsecond, hm, hiff⟩

end Tree

end Flexbox
