import Flexbox.Proofs.Mirror.Visits

namespace Flexbox

theorem Node.reflects_image {α : Type} [Scalar α] {n : Node α} (h : n.geometry = .initial) :
    n.Reflects { n with style := n.style.mirror } := by
  refine ⟨0, 0, n.sharedCount, ?_⟩
  unfold reflect
  rw [h]
  rfl

namespace Tree

variable {α : Type} {t t' s u : Tree α} {root x : NodeId} {n m : Node α}

theorem find?_mirrored (t : Tree α) (x : NodeId) :
    t.mirrored.find? x = (t.find? x).map fun n => { n with style := n.style.mirror } := by
  unfold find? mirrored
  rw [Array.getElem?_map]
  cases t.slots[x.slot]? with
  | none => rfl
  | some slot =>
    dsimp only [Option.map_some]
    split <;> rfl

theorem mirrored_shape (t : Tree α) : t.SameShape t.mirrored := by
  constructor
  · intro x
    simp [Live, find?_mirrored]
  · funext x
    simp only [childrenOf, find?_mirrored]
    cases t.find? x <;> rfl

theorem mirrored_names (t : Tree α) : t.SameNames t.mirrored := by
  refine ⟨rfl, ?_⟩
  unfold occupancy mirrored
  simp [Function.comp_def]

theorem Sound.mirrored (ht : t.Sound) : t.mirrored.Sound := by
  have hfind : ∀ {x m}, t.mirrored.find? x = some m →
      ∃ n, t.find? x = some n ∧ { n with style := n.style.mirror } = m := by
    intro x m hm
    rw [find?_mirrored] at hm
    exact Option.map_eq_some_iff.mp hm
  have hshape := mirrored_shape t
  have howner : t.mirrored.ownerOf = t.ownerOf := by
    funext x
    simp only [ownerOf, find?_mirrored]
    cases t.find? x <;> rfl
  have howns : t.mirrored.owns = t.owns := by
    funext p c
    simp only [owns, howner]
  refine ⟨⟨⟨⟨fun i hi => ?_, ht.arena.tidy.nodup⟩, ?_, ?_, ?_, ?_, fun p => ?_⟩, ?_⟩,
    ht.hookless.1, ?_⟩
  · obtain ⟨v, hv⟩ := ht.arena.tidy.empty i hi
    exact ⟨v, by simp [Tree.mirrored, hv]⟩
  · intro p m c hm hc
    obtain ⟨n, hn, rfl⟩ := hfind hm
    exact (hshape.live c).mpr (ht.arena.live hn hc)
  · intro c m p hm hp
    obtain ⟨n, hn, rfl⟩ := hfind hm
    obtain ⟨k, hk, hc⟩ := ht.arena.owner hn hp
    exact ⟨{ k with style := k.style.mirror }, by rw [find?_mirrored, hk]; rfl, hc⟩
  · intro p m hm
    obtain ⟨n, hn, rfl⟩ := hfind hm
    exact show n.children.Nodup from ht.arena.nodup hn
  · intro c m hm
    obtain ⟨n, hn, rfl⟩ := hfind hm
    have hsharers : t.mirrored.sharers c = t.sharers c := by
      ext p
      simp only [sharers, Finset.mem_filter, List.mem_toFinset, mem_ids, hshape.live,
        hshape.children, howns]
    rw [hsharers]
    exact show n.sharedCount = _ from ht.arena.count hn
  · exact (whole_congr (by rw [hshape.children]) fun c _ => by rw [howns]).mpr (ht.arena.whole p)
  · intro p m hm hs
    obtain ⟨n, hn, rfl⟩ := hfind hm
    exact show n.children = [] from ht.arena.leaf hn hs
  · intro p m hm
    obtain ⟨n, hn, rfl⟩ := hfind hm
    exact show n.config.onCopy = none from ht.hookless.2 hn

theorem region_below (t : Tree α) (root : NodeId) : t.Region (t.below root) := by
  refine ⟨fun x hx c hc _ => ?_, fun x hx hl => absurd hl hx⟩
  obtain ⟨n, hn, -⟩ := mem_childrenOf.mp hc
  exact (hx ⟨n, hn⟩).tail hc

variable [Scalar α]

theorem mirrored_start (ht : t.Sound)
    (hnew : ∀ x m, t.Reaches root x → t.find? x = some m →
      m.style.Undirected ∧ m.geometry = .initial) :
    Pass.Mirrored ((t.primed root).below root) (Pass.start (t.primed root) .initial)
      (Pass.start (t.mirrored.primed root) .initial) := by
  have hshape := primed_shape t root
  have hread : ∀ x ∈ (t.primed root).below root, (t.primed root).Live x → ∃ m, t.find? x = some m ∧
      m.style.Undirected ∧ m.geometry = .initial := by
    intro x hx hlx
    have hreach : t.Reaches root x := by
      have hr := hx hlx
      rwa [hshape.children] at hr
    obtain ⟨m, hm⟩ := (hshape.live x).mp hlx
    exact ⟨m, hm, hnew x m hreach hm⟩
  refine ⟨ht.primed root, ht.mirrored.primed root, region_below _ root, ?_, rfl,
    rfl, rfl, fun x hx hlx => ?_, fun x hx hlx => ?_, fun x hx hlx hne => ?_⟩
  · have hnames := (mirrored_names t).update root Node.resolveSize Node.resolveSize
    exact ⟨hnames.free, hnames.occupancy⟩
  all_goals
    obtain ⟨m, hm, hu, hgeometry⟩ := hread x hx hlx
    have hm' : t.mirrored.find? x = some { m with style := m.style.mirror } := by
      rw [find?_mirrored, hm]
      rfl
  · have himage := Node.reflects_image hgeometry
    by_cases hxr : x = root
    · subst hxr
      rw [Pass.node, Pass.node, Pass.start, Pass.start, find?_primed_root hm, find?_primed_root hm']
      exact himage.resolveSize
    · rw [Pass.node, Pass.node, Pass.start, Pass.start, find?_primed_other hxr,
        find?_primed_other hxr, hm, hm']
      exact himage
  all_goals obtain ⟨size, hnode⟩ := node_primed hm root
  · rw [hnode]
    exact hu
  · rw [hnode] at hne
    exact absurd (by rw [show Node.geometry _ = m.geometry from rfl, hgeometry]; rfl) hne

variable [Std.Commutative (fun a b : α => a + b)] {S : Set NodeId} {r : Request α}

theorem rootRequest_mirrored (h : n.Reflects m) (hu : n.style.Undirected)
    (width height : Extent α) :
    rootRequest m ⟨width, height, .rtl⟩ = (rootRequest n ⟨width, height, .ltr⟩).mirror := by
  simp only [rootRequest, h.rootOffer hu]
  rfl

theorem runPass_onward (hm : Pass.Mirrored S (Pass.start t .initial) (Pass.start t' .initial))
    (hx : root ∈ S) (hg : t.Grounded root) (hgrid : ((Pass.start t .initial).node root).HasNoGrid)
    (hr : r.ownerDirection = .ltr) (hl : r.performLayout = true) (width height : Extent α) :
    Pass.Onward S t.slots.size (Pass.start t .initial) (Pass.start t' .initial)
        (t.runPass root ⟨width, height, .ltr⟩ r .initial)
        (t'.runPass root ⟨width, height, .rtl⟩ r.mirror .initial) ∧
      Pass.Imaged (t.runPass root ⟨width, height, .ltr⟩ r .initial)
        (t'.runPass root ⟨width, height, .rtl⟩ r.mirror .initial) root := by
  have hlive : (Pass.start t .initial).tree.Live root := hg.live
  have hsize : t'.slots.size = t.slots.size := hm.names.size
  obtain ⟨hflag, ho, hltr⟩ := Pass.visit_onward S t.slots.size
    (Nat.lt_succ_self t.slots.size) hr hm hx hlive hg.unfold_slots
  have hi := ho.mirrored.shown hx (Pass.visit_shown hm.sound hg hl t.slots.size)
  generalize hp : Pass.visit _ root r _ = answer at *
  generalize hp' : Pass.visit _ root r.mirror _ = answer' at *
  obtain ⟨computed, q⟩ := answer
  obtain ⟨computed', q'⟩ := answer'
  obtain rfl : computed = computed' := hflag.symm
  dsimp only at ho hltr hi
  rw [← hsize] at hp'
  have hlq := ho.moves.live hm.sound hlive
  have hnode := ho.mirrored.node root hx hlq
  cases computed with
  | false =>
    rw [runPass_recalled (congrArg Prod.fst hp), runPass_recalled (congrArg Prod.fst hp'),
      rootVisit, rootVisit, hp, hp']
    exact ⟨ho, hi⟩
  | true =>
    have hgrid : (q.node root).HasNoGrid := by
      unfold Node.HasNoGrid at hgrid ⊢
      rw [ho.moves.node_kin hm.sound hlive]
      exact hgrid
    have hgrid' : (q'.node root).HasNoGrid := by
      unfold Node.HasNoGrid at hgrid ⊢
      rwa [hnode.config]
    have hrtl : (q'.node root).geometry.direction = .rtl := by
      obtain ⟨_, _, _, he⟩ := hnode
      rw [he, ← show Direction.ltr.mirror = .rtl from rfl, ← hltr rfl]
      rfl
    rw [runPass_gridless hp hgrid, runPass_gridless hp' hgrid']
    obtain ⟨hplace, -⟩ := ho.mirrored.place hx hlq
      (fun n => n.geometry.direction) (fun n => n.geometry.direction) (hltr rfl) hrtl
      width height width
    exact ⟨ho.trans hplace, hplace.imaged root hx hlq hi⟩

omit [Std.Commutative (fun a b : α => a + b)] in
theorem Settled.reaches_pass {v : Viewport α} (hs : Settled (t.laidOut root v r) u root) :
    u.Reaches root x ↔ (t.runPass root v r .initial).tree.Reaches root x := by
  rw [hs.shape.reaches, laidOut, (clean_shape _ root 0).reaches]

omit [Std.Commutative (fun a b : α => a + b)] in
theorem mirrored_reaches {p p' : Pass α} (hm : Pass.Mirrored S p p') (hroot : root ∈ S)
    (hl : p.tree.Live root) (hx : p.tree.Reaches root x) : p'.tree.Reaches root x := by
  induction hx with
  | refl => exact .refl
  | tail hy hc ih =>
    obtain ⟨hmem, hly⟩ := hm.reached hroot hl hy
    refine ih.tail ?_
    rw [← Pass.children_eq hly] at hc
    rwa [← Pass.children_eq (hm.live' hly), Pass.children, (hm.node _ hmem hly).children]

omit [Std.Commutative (fun a b : α => a + b)] in
/-- Right to left, the image of a tree is laid out as the tree is left to right: all boxes have the
same sizes and stand on the same lines at the same heights, and every box stands as far from the
side where its owner starts. Both layouts count the same. -/
theorem rtl_layout_mirrors_ltr (hadd : ∀ a b : α, a + b = b + a) (ht : t.Sound)
    (hg : t.Grounded root) (hn : t.find? root = some n) (hgrid : n.HasNoGrid)
    (hnew : ∀ x m, t.Reaches root x → t.find? x = some m →
      m.style.Undirected ∧ m.geometry = .initial) (width height : Extent α) :
    ∃ stats s s',
      (∀ limits, (Edit.calculateLayout root ⟨width, height, .ltr⟩ limits).apply t =
        (.ok stats, s)) ∧
      (∀ limits, (Edit.calculateLayout root ⟨width, height, .rtl⟩ limits).apply t.mirrored =
        (.ok stats, s')) ∧
      ∀ x, s.Reaches root x → ∃ m m', s.find? x = some m ∧ s'.find? x = some m' ∧
        m'.children = m.children ∧ m'.geometry.size = m.geometry.size ∧ m'.line = m.line ∧
        m'.geometry.position.top = m.geometry.position.top ∧
        m'.geometry.position.bottom = m.geometry.position.bottom ∧
        ∀ c ∈ m.children,
          (s'.find? c).map (fun k => k.geometry.position.get (m.style.flexDirection.rowSide .rtl)) =
            (s.find? c).map fun k =>
              k.geometry.position.get (m.style.flexDirection.rowSide .ltr) := by
  have hcomm : Std.Commutative (fun a b : α => a + b) := ⟨hadd⟩
  have hg' : t.mirrored.Grounded root := (mirrored_shape t).grounded.mpr hg
  have hn' : t.mirrored.find? root = some { n with style := n.style.mirror } := by
    rw [find?_mirrored, hn]
    rfl
  obtain ⟨hu, hgeometry⟩ := hnew root n .refl hn
  have himage : n.resolveSize.Reflects (Node.resolveSize { n with style := n.style.mirror }) :=
    (Node.reflects_image hgeometry).resolveSize
  obtain ⟨s, hrun, -, hs⟩ := Edit.calculateLayout_run ht hg hn ⟨width, height, .ltr⟩
  obtain ⟨s', hrun', -, hs'⟩ := Edit.calculateLayout_run ht.mirrored hg' hn' ⟨width, height, .rtl⟩
  rw [rootRequest_mirrored himage hu] at hrun' hs'
  have hstart := mirrored_start ht hnew
  have hroot : ((Pass.start (t.primed root) .initial).node root).HasNoGrid := by
    obtain ⟨size, hnode⟩ := node_primed hn root
    rw [hnode]
    exact hgrid
  obtain ⟨ho, hi⟩ := runPass_onward hstart below_self (primed_grounded.mpr hg) hroot
    (r := rootRequest n.resolveSize ⟨width, height, .ltr⟩) rfl rfl width height
  have hlive := ho.moves.live hstart.sound (primed_grounded.mpr hg).live
  rw [ho.mirrored.stats] at hrun'
  refine ⟨_, s, s', hrun, hrun', fun x hx => ?_⟩
  rw [hs.reaches_pass] at hx
  have hfound := fun y hy => hs.find?_reached (primed_grounded.mpr hg) (ht.primed root) (x := y) hy
    (Pass.node_eq (ho.mirrored.reached below_self hlive hy).2)
  have hfound' := fun y hy => hs'.find?_reached (primed_grounded.mpr hg') (ht.mirrored.primed root)
    (x := y) (mirrored_reaches ho.mirrored below_self hlive hy)
    (Pass.node_eq (ho.mirrored.live' (ho.mirrored.reached below_self hlive hy).2))
  generalize (t.primed root).runPass root _ _ .initial = q at *
  generalize (t.mirrored.primed root).runPass root _ _ .initial = q' at *
  obtain ⟨hmem, hl⟩ := ho.mirrored.reached below_self hlive hx
  obtain ⟨matters, hm⟩ := hfound x hx
  obtain ⟨matters', hm'⟩ := hfound' x hx
  have hnode := ho.mirrored.node x hmem hl
  refine ⟨_, _, hm, hm', hnode.children, hnode.same (fun n => n.geometry.size) fun _ _ _ => rfl,
    hnode.same Node.line fun _ _ _ => rfl,
    hnode.same (fun n => n.geometry.position.top) fun _ _ _ => rfl,
    hnode.same (fun n => n.geometry.position.bottom) fun _ _ _ => rfl, fun c hc => ?_⟩
  have hc : c ∈ q.tree.childrenOf x := by rwa [← Pass.children_eq hl]
  obtain ⟨_, hk⟩ := hfound c (hx.tail hc)
  obtain ⟨_, hk'⟩ := hfound' c (hx.tail hc)
  rw [hk, hk', FlexDirection.rowSide_rtl]
  exact congrArg some (hi x hx c hc).leads

/-- A row that starts away from its edge, with a box and a reversed row in it that holds another. -/
def lopsided : Tree Float32 :=
  (Tree.empty gridless).after [.newNode none, .newNode none, .newNode none, .newNode none,
    .addChild ⟨1, 1⟩ ⟨2, 1⟩, .addChild ⟨1, 1⟩ ⟨3, 1⟩, .addChild ⟨3, 1⟩ ⟨4, 1⟩,
    .updateStyle ⟨1, 1⟩ fun s => { s with
      flexDirection := .row
      padding := { s.padding with left := .points 10 } },
    .updateStyle ⟨2, 1⟩ fun s => { s with
      size := ⟨.points 20, .points 20⟩
      margin := { s.margin with right := .points 5 } },
    .updateStyle ⟨3, 1⟩ fun s => { s with flexDirection := .rowReverse, flexGrow := .known 1 },
    .updateStyle ⟨4, 1⟩ fun s => { s with
      size := ⟨.points 30, .percent 50⟩
      position := { s.position with left := .points 3 } }]

theorem lopsided_sound : lopsided.Sound :=
  (Reachable.after (.empty rfl) (by simp [Call.Hookless, Call.Returns])).sound

theorem lopsided_grounded : lopsided.Grounded ⟨1, 1⟩ := ⟨3, by decide +kernel⟩

theorem lopsided_ids : lopsided.ids = [⟨1, 1⟩, ⟨2, 1⟩, ⟨3, 1⟩, ⟨4, 1⟩] := by decide +kernel

set_option maxRecDepth 2000 in
theorem lopsided_new {m : Node Float32} (hm : lopsided.find? x = some m) :
    m.style.Undirected ∧ m.geometry = .initial := by
  have hx : x ∈ lopsided.ids := mem_ids.mpr ⟨m, hm⟩
  have hplain : ∀ x ∈ lopsided.ids, (lopsided.find? x).all fun n =>
      n.style.margin.isPhysical && n.style.position.isPhysical && n.style.padding.isPhysical &&
        n.style.border.isPhysical && n.style.direction == .inherit := by decide +kernel
  have hnew : ∀ x ∈ lopsided.ids, (lopsided.find? x).map Node.geometry = some .initial := by
    simp only [lopsided_ids, List.forall_mem_cons, List.not_mem_nil, false_implies, implies_true,
      and_true]
    exact ⟨rfl, rfl, rfl, rfl⟩
  have hall := hplain x hx
  simp only [hm, Option.all_some, Bool.and_eq_true, beq_iff_eq] at hall
  obtain ⟨⟨⟨⟨hmargin, hposition⟩, hpadding⟩, hborder⟩, hdirection⟩ := hall
  exact ⟨⟨hmargin, hposition, hpadding, hborder, hdirection⟩, by simpa [hm] using hnew x hx⟩

theorem rtl_layout_mirrors_ltr_lopsided :
    (∀ a b : Float32, a + b = b + a) ∧ lopsided.Sound ∧ lopsided.Grounded ⟨1, 1⟩ ∧
      ((lopsided.find? ⟨1, 1⟩).any fun n => n.config.scale == 0) = true ∧
      (∀ x m, lopsided.Reaches ⟨1, 1⟩ x → lopsided.find? x = some m →
        m.style.Undirected ∧ m.geometry = .initial) ∧
      ∃ stats s s',
        (∀ limits, (Edit.calculateLayout ⟨1, 1⟩ ⟨.known 100, .known 60, .ltr⟩ limits).apply
          lopsided = (.ok stats, s)) ∧
        (∀ limits, (Edit.calculateLayout ⟨1, 1⟩ ⟨.known 100, .known 60, .rtl⟩ limits).apply
          lopsided.mirrored = (.ok stats, s')) ∧
        ∀ x, s.Reaches ⟨1, 1⟩ x → ∃ m m', s.find? x = some m ∧ s'.find? x = some m' ∧
          m'.geometry.size = m.geometry.size ∧ ∀ c ∈ m.children,
            (s'.find? c).map (fun k =>
                k.geometry.position.get (m.style.flexDirection.rowSide .rtl)) =
              (s.find? c).map fun k =>
                k.geometry.position.get (m.style.flexDirection.rowSide .ltr) := by
  have hgrid : ((lopsided.find? ⟨1, 1⟩).any fun n => n.config.scale == 0) = true := by
    decide +kernel
  obtain ⟨n, hn⟩ := lopsided_grounded.live
  have hscale := hgrid
  rw [hn] at hscale
  obtain ⟨stats, s, s', hrun, hrun', hall⟩ := rtl_layout_mirrors_ltr Binary32.add_comm
    lopsided_sound lopsided_grounded hn hscale (fun _ _ _ hm => lopsided_new hm) (.known 100)
    (.known 60)
  refine ⟨Binary32.add_comm, lopsided_sound, lopsided_grounded, hgrid,
    fun _ _ _ hm => lopsided_new hm, stats, s, s', hrun, hrun', fun x hx => ?_⟩
  obtain ⟨m, m', hm, hm', -, hsize, -, -, -, hside⟩ := hall x hx
  exact ⟨m, m', hm, hm', hsize, hside⟩

end Tree

end Flexbox
