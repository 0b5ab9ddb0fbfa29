import Flexbox.Proofs.Territory

namespace Flexbox

variable {α : Type}

namespace Tree

variable {t s : Tree α} {x y p : NodeId} {f : Node α → Node α} {id : NodeId}

/-- A node at or below `x` clips what runs over it. -/
def Clips (t : Tree α) (x : NodeId) : Prop :=
  ∃ y n, t.Reaches x y ∧ t.find? y = some n ∧ n.style.overflow ≠ .visible

theorem Clips.parent {c : NodeId} (h : t.Clips c) (hc : c ∈ t.childrenOf x) : t.Clips x := by
  obtain ⟨y, n, hr, hy⟩ := h
  exact ⟨y, n, .of_child hc hr, hy⟩

theorem Bisim.clips {R : NodeId → NodeId → Prop} (hb : Bisim t s R) (hxy : R x y)
    (h : t.Clips x) : s.Clips y := by
  obtain ⟨z, k, hr, hk, hclips⟩ := h
  induction hr using Relation.ReflTransGen.head_induction_on generalizing y with
  | refl =>
    obtain ⟨n, m, hn, hm, htraits, -⟩ := hb z y hxy
    obtain rfl := Option.some.inj (hk.symm.trans hn)
    refine ⟨y, m, .refl, hm, ?_⟩
    rwa [show m.style = k.style from congrArg Traits.style htraits]
  | head hc _ ih =>
    obtain ⟨n, m, hn, hm, -, hchildren⟩ := hb _ y hxy
    rw [childrenOf_eq hn] at hc
    obtain ⟨d, hd, hcd⟩ := exists_of_forall₂ hchildren.flip hc
    exact (ih hcd).parent (mem_childrenOf.mpr ⟨m, hm, hd⟩)

theorem clips_congr (hc : s.childrenOf = t.childrenOf)
    (hs : ∀ x, (s.find? x).map Node.style = (t.find? x).map Node.style) :
    s.Clips x ↔ t.Clips x := by
  have hreach : s.Reaches = t.Reaches := by
    unfold Reaches
    rw [hc]
  have hfound : ∀ {t : Tree α} {y}, (∃ n, t.find? y = some n ∧ n.style.overflow ≠ .visible) ↔
      ∃ style, (t.find? y).map Node.style = some style ∧ style.overflow ≠ .visible := by
    intro t y
    simp only [Option.map_eq_some_iff]
    constructor
    · rintro ⟨n, hn, hclips⟩
      exact ⟨n.style, ⟨n, hn, rfl⟩, hclips⟩
    · rintro ⟨_, ⟨n, hn, rfl⟩, hclips⟩
      exact ⟨n, hn, hclips⟩
  simp only [Clips, hreach, exists_and_left, hfound, hs]

theorem clips_update (hf : ∀ n, Node.SameCore n (f n)) : (t.update id f).Clips x ↔ t.Clips x :=
  clips_congr (childrenOf_update fun n _ => (hf n).links.children)
    (map_find?_update fun n _ => congrArg Traits.style (hf n).traits)

/-- Every flag speaks of a node that clips. -/
def Warranted (t : Tree α) : Prop :=
  ∀ x n, t.find? x = some n → n.geometry.hadOverflow = true → t.Clips x

theorem Warranted.update (ht : t.Warranted) (hf : ∀ n, Node.SameCore n (f n))
    (hflag : ∀ n, (f n).geometry.hadOverflow = true → n.geometry.hadOverflow = true ∨ t.Clips id) :
    (t.update id f).Warranted := by
  intro x m hm hover
  rw [clips_update hf]
  obtain ⟨n, rfl, hn, rfl⟩ | ⟨-, hm⟩ := find?_update_cases hm
  · exact (hflag n hover).elim (ht x n hn) fun hclips => hclips
  · exact ht x m hm hover

theorem Warranted.sweep (ht : t.Warranted) {γ : Type} {change : γ → Node α → Node α}
    {down : γ → Node α → γ} (hc : ∀ y n, Node.SameCore n (change y n))
    (hflag : ∀ y n, (change y n).geometry.hadOverflow = n.geometry.hadOverflow) (fuel : Nat) (y : γ)
    (id : NodeId) : (t.sweep change down fuel y id).Warranted :=
  sweep_induct (fun _ _ _ _ _ _ => trivial)
    (fun _ y _ _ hs => hs.update (hc y) fun n hn => Or.inl (by rwa [hflag] at hn)) fuel y trivial ht

theorem Warranted.privatized (hw : t.Warranted) (ht : t.Arena) (h : t.Privatized p s)
    (hl : t.Live p) : s.Warranted := by
  intro x m hm hover
  rcases h.new x ⟨m, hm⟩ with ⟨n, hn⟩ | hx
  · refine (h.bisim ht).clips (Or.inl ⟨rfl, n, hn⟩) (hw x n hn ?_)
    by_cases hxp : x = p
    · subst hxp
      obtain ⟨ks, j, hs, -⟩ := h.self n hn
      obtain rfl := Option.some.inj (hm.symm.trans hs)
      exact hover
    · obtain ⟨j, hs⟩ := h.other x n hxp hn
      obtain rfl := Option.some.inj (hm.symm.trans hs)
      exact hover
  · obtain ⟨n, hn⟩ := hl
    obtain ⟨ks, j, hs, hcopies⟩ := h.self n hn
    rw [childrenOf_eq hs] at hx
    obtain ⟨c, -, hcopied⟩ := exists_of_forall₂ hcopies hx
    refine (h.bisim ht).clips (Or.inr hcopied) ?_
    obtain ⟨k, i, hk, hx⟩ := hcopied
    obtain rfl := Option.some.inj (hm.symm.trans hx)
    exact hw c k hk hover

end Tree

namespace Pass

variable [Scalar α] {S : Set NodeId} {p q : Pass α} {x : NodeId}

theorem Step.clips_iff (h : Step S p q) (hs : p.tree.Sound) (hx : p.tree.Live x) :
    q.tree.Clips x ↔ p.tree.Clips x := by
  cases h with
  | update _ hf => exact Tree.clips_update hf
  | own _ hl =>
    obtain ⟨s, he, -, hp⟩ := ownChildren_run hs hl
    rw [he]
    have hb := hp.bisim hs.arena
    exact ⟨hb.symm.clips (Or.inl ⟨rfl, hx⟩), hb.clips (Or.inl ⟨rfl, hx⟩)⟩
  | tell | record | count => exact Iff.rfl

theorem Moves.clips_iff (h : Moves S p q) (hs : p.tree.Sound) (hx : p.tree.Live x) :
    q.tree.Clips x ↔ p.tree.Clips x := by
  induction h with
  | refl => exact Iff.rfl
  | tail hm hstep ih =>
    exact (hstep.clips_iff (Moves.sound hm hs) (Moves.live hm hs hx)).trans ih

/-- Steps that set no flag without warrant. -/
def Warrants (S : Set NodeId) (p q : Pass α) : Prop :=
  Moves S p q ∧ (p.tree.Sound → p.tree.Warranted → q.tree.Warranted)

theorem Warrants.conduct (S : Set NodeId) :
    Conduct S (Warrants S : Pass α → Pass α → Prop) where
  refl p := ⟨.refl p, fun _ hw => hw⟩
  trans h h' := ⟨h.1.trans h'.1, fun hs hw => h'.2 (h.1.sound hs) (h.2 hs hw)⟩
  moves h := h.1
  update p _ _ hid hf hflag :=
    ⟨(Step.update p hid hf).moves, fun _ hw => hw.update hf fun n hn => Or.inl (hflag n hn)⟩
  own h := by
    refine ⟨(Step.own _ h.mem h.live).moves, fun hs hw => ?_⟩
    obtain ⟨s, he, -, hp⟩ := ownChildren_run hs h.live
    rw [he]
    exact hw.privatized hs.arena hp h.live
  tell p e := ⟨(Step.tell p e).moves, fun _ hw => hw⟩
  record p _ hv := ⟨(Step.record p hv).moves, fun _ hw => hw⟩
  count p _ hf := ⟨(Step.count p hf).moves, fun _ hw => hw⟩
  overrun h hover := by
    refine ⟨updateGeometry_moves h.mem _, fun _ hw => hw.update (fun _ => rfl) fun _ _ => Or.inr ?_⟩
    exact ⟨_, _, .refl, node_eq h.live, by simpa using hover⟩
  heed {p q id x} h hx hpq hover := by
    refine ⟨updateGeometry_moves h.mem _, fun _ hw => hw.update (fun _ => rfl) fun _ _ => Or.inr ?_⟩
    -- What is below the container and the child is what was below them when it took up its work.
    have hchild := (h.child hx).live
    have hclips := hw x _ (node_eq (hpq.1.live h.sound hchild)) hover
    rw [hpq.1.clips_iff h.sound hchild] at hclips
    rw [hpq.1.clips_iff h.sound h.live]
    rw [children_eq h.live] at hx
    exact hclips.parent hx

end Pass

namespace Tree

variable [Scalar α] {t s : Tree α} {root x : NodeId} {v : Viewport α} {r : Request α}

theorem Warranted.laidOut (hw : t.Warranted) (ht : t.Sound) (hl : t.Live root) :
    (t.laidOut root v r).Warranted := by
  have hready := ht.ready_univ hl .initial
  have hvisit := (Pass.Warrants.conduct Set.univ).visit (Pass.start t .initial).depth r
    hready.admitted
  have hpass : (t.runPass root v r .initial).tree.Warranted := by
    unfold runPass
    dsimp only
    generalize Pass.visit _ root r _ = answer at hvisit ⊢
    obtain ⟨computed, p⟩ := answer
    have hp := hvisit.2 ht hw
    split
    · have hplaced : (p.redraw root fun n =>
          n.placed n.geometry.direction v.width v.height v.width).tree.Warranted :=
        hp.update (fun _ => rfl) fun n hn => Or.inl (by
          dsimp only at hn
          rwa [Pass.placed_sameBox n] at hn)
      dsimp only
      unfold snap
      split
      · exact hplaced
      · exact hplaced.sweep (by intros; rfl) (by intros; rfl) _ _ _
    · exact hp
  exact hpass.sweep (by intros; rfl) (by intros; rfl) _ _ _

omit [Scalar α] in
theorem Settled.warranted {w : Tree α} (hs : Settled w s root) (hw : w.Warranted) :
    s.Warranted := by
  have hsame : ∀ {u : Tree α}, (∀ x, s.find? x = u.find? x) → u.Warranted → s.Warranted := by
    intro u hu hw x n hn hover
    rw [clips_congr (SameShape.of_find? hu).children fun y => by rw [hu]]
    exact hw x n (by rwa [← hu]) hover
  rcases hs with hs | ⟨differs, hs⟩
  · exact hsame hs hw
  · exact hsame hs (hw.update (fun _ => rfl) fun _ hn => Or.inl hn)

/-- After the first layout of a tree, whatever is flagged for content that runs over clips it, or
has a node below it that does. -/
theorem flagged_above_clipping (ht : t.Arena) (hh : t.Hookless) (ha : t.Acyclic) (hl : t.Live root)
    (hfresh : ∀ x n, t.find? x = some n → n.geometry.hadOverflow = false) (v : Viewport α) :
    ∃ stats s, (∀ limits, (Edit.calculateLayout root v limits).apply t = (.ok stats, s)) ∧
      ∀ x n, s.find? x = some n → n.geometry.hadOverflow = true →
        ∃ y m, s.Reaches x y ∧ s.find? y = some m ∧ m.style.overflow ≠ .visible := by
  have hs : t.Sound := ⟨ht, hh⟩
  obtain ⟨n, hn⟩ := hl
  obtain ⟨s, hrun, -, hsettled⟩ := Edit.calculateLayout_run hs (ha.grounded ht ⟨n, hn⟩) hn v
  have hclear : t.Warranted := fun x k hk hover => by
    rw [hfresh x k hk] at hover
    cases hover
  have hprimed : (t.primed root).Warranted :=
    hclear.update (f := Node.resolveSize) (fun _ => rfl) fun _ hn => Or.inl hn
  have hlaid := hprimed.laidOut (v := v) (r := rootRequest n.resolveSize v) (hs.primed root)
    (((primed_shape t root).live _).mpr ⟨n, hn⟩)
  exact ⟨_, s, hrun, hsettled.warranted hlaid⟩

/-- A root that shows what runs over, around a box that clips and that its content runs over. -/
def brimming : Tree Float32 :=
  (Tree.empty gridless).after [.newNode none, .newNode none, .newNode none,
    .addChild ⟨1, 1⟩ ⟨2, 1⟩, .addChild ⟨2, 1⟩ ⟨3, 1⟩,
    .updateStyle ⟨2, 1⟩ fun s => { s with overflow := .hidden, size := ⟨.points 50, .points 50⟩ },
    .updateStyle ⟨3, 1⟩ fun s => { s with size := ⟨.points 50, .points 100⟩ }]

theorem brimming_reachable : brimming.Reachable :=
  Reachable.after (.empty rfl) (by simp [Call.Hookless, Call.Returns])

/-- The root that shows what runs over takes the flag over from its child. -/
theorem visible_root_flagged_brimming :
    brimming.Reachable ∧ (brimming.find? ⟨1, 1⟩).map (·.style.overflow) = some .visible ∧
    ((brimming.after [.calculateLayout ⟨1, 1⟩ ⟨.known 100, .known 100, .ltr⟩]).find?
      ⟨1, 1⟩).map (·.geometry.hadOverflow) = some true :=
  ⟨brimming_reachable, by decide +kernel, by decide +kernel⟩

theorem flagged_above_clipping_brimming :
    brimming.Arena ∧ brimming.Hookless ∧ brimming.Acyclic ∧ brimming.Live ⟨1, 1⟩ ∧
    (∀ x n, brimming.find? x = some n → n.geometry.hadOverflow = false) ∧
    ∃ stats s, (∀ limits, (Edit.calculateLayout ⟨1, 1⟩ ⟨.known 100, .known 100, .ltr⟩
        limits).apply brimming = (.ok stats, s)) ∧
      ∀ x n, s.find? x = some n → n.geometry.hadOverflow = true →
        ∃ y m, s.Reaches x y ∧ s.find? y = some m ∧ m.style.overflow ≠ .visible := by
  have hs := brimming_reachable.sound
  have hall : ⟨1, 1⟩ ∈ brimming.ids ∧ ∀ x ∈ brimming.ids, (brimming.unfold 3 x).isSome ∧
      (brimming.find? x).map (·.geometry.hadOverflow) = some false := by
    decide +kernel
  have hlive := mem_ids.mp hall.1
  have hacyclic := acyclic_of_unfold fun x hx => (hall.2 x hx).1
  have hfresh : ∀ x n, brimming.find? x = some n → n.geometry.hadOverflow = false :=
    fun x n hn => by simpa [hn] using (hall.2 x (mem_ids.mpr ⟨n, hn⟩)).2
  exact ⟨hs.arena, hs.hookless, hacyclic, hlive, hfresh,
    flagged_above_clipping hs.arena hs.hookless hacyclic hlive hfresh _⟩

end Tree

end Flexbox
