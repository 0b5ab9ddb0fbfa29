import Flexbox.Proofs.Mirror.Hosts

namespace Flexbox

theorem FlexDirection.rowSide_ltr {d axis : FlexDirection}
    (haxis : axis = d.resolve .ltr ∨ axis = (d.resolve .ltr).cross .ltr)
    (hrow : axis.isRow = true) : d.rowSide .ltr = axis.leading := by
  cases d <;> rcases haxis with rfl | rfl <;> first | rfl | cases hrow

namespace Pass

variable {α : Type} [Scalar α] {S : Set NodeId} {h : Nat} {p p' q q' : Pass α} {x z : NodeId}
  {c : Container α} {xs : List NodeId} {v v' : Visitor α} {k : Nat}

theorem Mirrored.clear (hm : Mirrored S p p') (hx : x ∈ S) (hl : p.tree.Live x)
    (hd : (p.tree.unfold h x).isSome) :
    Onward S h p p' (p.update x Node.emptied) (p'.update x Node.emptied) ∧
      Headed (p.update x Node.emptied) (p'.update x Node.emptied) x := by
  have hleads : ∀ s, (p.node x).emptied.Leads (p'.node x).emptied s := fun s => by
    cases s <;> rfl
  refine ⟨hm.update hx hl (fun _ => rfl) (fun _ => rfl) ?_ (fun _ _ _ => hleads _)
    (fun hne => absurd rfl hne) (Or.inl hd), fun z _ => ?_⟩
  · obtain ⟨_, _, count, he⟩ := hm.node x hx hl
    exact ⟨0, 0, count, by rw [he]; rfl⟩
  · rw [node_update_self hl, node_update_self (hm.live' hl)]
    exact hleads _

theorem zeroOut_onward {fuel : Nat} (hm : Mirrored S p p') (hx : x ∈ S) (hl : p.tree.Live x)
    (hd : (p.tree.unfold k x).isSome) (hk : k ≤ h) (hf : k ≤ fuel) :
    Onward S h p p' (zeroOut fuel x p) (zeroOut fuel x p') ∧
      Headed (zeroOut fuel x p) (zeroOut fuel x p') x ∧
      Imaged (zeroOut fuel x p) (zeroOut fuel x p') x := by
  induction k generalizing x fuel p p' with
  | zero => cases hd
  | succ k ih =>
    obtain ⟨fuel, rfl⟩ := exists_pred hf
    rw [zeroOut_succ, zeroOut_succ]
    obtain ⟨hclear, hhead⟩ := hm.clear hx hl (Tree.unfold_isSome_mono hd hk)
    generalize p.update x _ = q at hclear hhead ⊢
    generalize p'.update x _ = q' at hclear hhead ⊢
    have hlq := hclear.moves.live hm.sound hl
    rw [← hclear.moves.unfold hm.sound hl] at hd
    obtain ⟨hown, hsame, hkids⟩ := hclear.mirrored.own_kids (h := h) hx hlq hd
    have hlu := hown.moves.live hclear.mirrored.sound hlq
    rw [hsame]
    generalize q.ownChildren x = u at hown hkids hlu ⊢
    generalize q'.ownChildren x = u' at hown ⊢
    obtain ⟨hwalk, hall⟩ := walk_onward (fun y r r' => Headed r r' y ∧ Imaged r r' y)
      (g := fun p y => zeroOut fuel y p) (l := u.children x)
      hown.mirrored
      (fun y hy _ _ _ _ ho ho' hpost =>
        have hk := ho.kid (hkids y hy)
        ⟨ho'.headed_kid hk hpost.1, ho'.imaged_kid hk hpost.2⟩)
      (fun r r' y hy ho =>
        have hk := ho.kid (hkids y hy)
        ih ho.mirrored hk.mem hk.live hk.deep (by omega) (by omega))
    have hend := (hclear.trans hown).trans hwalk
    refine ⟨hend, (hown.trans hwalk).headed x hx hlq hhead, ?_⟩
    have hlist := hwalk.children hlu hkids
    have hlive := hwalk.moves.live hown.mirrored.sound hlu
    refine imaged_of_kids (S := S) (h := k) hlive ?_ ?_
    · rw [hlist]
      exact fun y hy => hwalk.kid (hkids y hy)
    · rw [hlist]
      exact hall

theorem zeroOut_kid (hm : Mirrored S p p') (hk : Kid S h p z x) :
    Onward S h p p' (zeroOut p.depth x p) (zeroOut p.depth x p') ∧
      Headed (zeroOut p.depth x p) (zeroOut p.depth x p') x ∧
      Imaged (zeroOut p.depth x p) (zeroOut p.depth x p') x := by
  have hslots := Tree.Grounded.unfold_slots ⟨h, hk.deep⟩
  have hdepth : p.tree.slots.size ≤ p.depth := by
    unfold Pass.depth
    omega
  rcases Nat.le_total h p.tree.slots.size with hle | hle
  · exact zeroOut_onward hm hk.mem hk.live hk.deep le_rfl (by omega)
  · exact zeroOut_onward hm hk.mem hk.live hslots hle hdepth

theorem baselineWithin_onward (fuel : Nat) (hm : Mirrored S p p') (hx : x ∈ S)
    (hl : p.tree.Live x) :
    (baselineWithin fuel x p').1 = (baselineWithin fuel x p).1 ∧
      Onward S h p p' (baselineWithin fuel x p).2 (baselineWithin fuel x p').2 := by
  induction fuel generalizing x with
  | zero =>
    rw [baselineWithin, baselineWithin, (hm.node x hx hl).measuredSize]
    exact ⟨rfl, .refl hm⟩
  | succ fuel ih =>
    have hn := hm.node x hx hl
    have hkid : ∀ y ∈ (p.node x).children, y ∈ S ∧ p.tree.Live y := by
      intro y hy
      have hy : y ∈ p.tree.childrenOf x := by rwa [← children_eq hl]
      exact ⟨hm.region.closed x hx y hy, hm.sound.arena.accounted.live hy⟩
    have hchild := hn.baselineChild? (fun y hy => hm.node y (hkid y hy).1 (hkid y hy).2) none
    rw [baselineWithin, baselineWithin]
    dsimp only
    rw [hn.same Node.baseline fun _ _ _ => rfl, hn.measuredSize, hn.config, hn.children, hchild]
    cases hbase : (p.node x).baseline with
    | some baseline =>
      dsimp only
      have htell := hm.tell (h := h)
        (.baseline baseline.label ((p.node x).geometry.measuredSize .width)
          ((p.node x).geometry.measuredSize .height))
        (.baseline baseline.label ((p.node x).geometry.measuredSize .width)
          ((p.node x).geometry.measuredSize .height))
      unfold Tree.log
      split
      · split
        · exact ⟨rfl, htell.trans (htell.mirrored.tell _ _)⟩
        · exact ⟨rfl, htell⟩
      · exact ⟨rfl, htell⟩
    | none =>
      dsimp only
      cases hfound : (p.node x).baselineChild?
          ((p.node x).children.map fun y => (y, p.node y)) none with
      | none => exact ⟨rfl, .refl hm⟩
      | some y =>
        dsimp only
        have hy : y ∈ (p.node x).children := by
          rcases baselineChild?_mem _ _ _ hfound with hno | hmem
          · cases hno
          · simpa using hmem
        obtain ⟨hvalue, ho⟩ := ih (hkid y hy).1 (hkid y hy).2
        have hnode := ho.mirrored.node y (hkid y hy).1 (ho.moves.live hm.sound (hkid y hy).2)
        rw [hvalue, hnode.same (fun n => n.geometry.position.top) fun _ _ _ => rfl]
        exact ⟨rfl, ho⟩

theorem placeAtStart_onward (hc : Host S h c xs p p') (hx : x ∈ xs) :
    Onward S h p p' (p.placeAtStart c x) (p'.placeAtStart (c.turn true) x) ∧
      (c.performLayout = true →
        Headed (p.placeAtStart c x) (p'.placeAtStart (c.turn true) x) x) := by
  unfold placeAtStart
  simp only [Container.turn_performLayout, Container.turn_direction, hc.facing,
    Container.turn_innerMain, Container.turn_innerCross, Container.turn_innerWidth,
    Direction.turn, cond_true, Direction.mirror]
  by_cases hl : c.performLayout = true
  · simp only [hl, if_true]
    have hu := hc.kid_undirected hx
    have hltr := Node.resolveDirection_undirected hu .ltr nofun
    have hrtl := Node.resolveDirection_undirected ((hc.kid hx).undirected hu) .rtl nofun
    obtain ⟨ho, hh⟩ := hc.mirrored.place (hc.kids x hx).mem (hc.kids x hx).live
      (fun n => n.resolveDirection .ltr) (fun n => n.resolveDirection .rtl) hltr hrtl
      c.innerMain c.innerCross c.innerWidth
    exact ⟨ho, fun _ => hh⟩
  · simp only [hl, Bool.false_eq_true, if_false]
    exact ⟨.refl hc.mirrored, fun hno => by cases hno⟩

omit [Scalar α] in
theorem update_self (p : Pass α) (x : NodeId) : (p.update x fun n => n) = p :=
  congrArg (fun t => { p with tree := t }) (Tree.update_same fun _ _ => rfl)

theorem Mirrored.setPosition_end (hm : Mirrored S p p') (hk : Kid S h p z x) (side : Side)
    (hrow : side = .left ∨ side = .right) (hne : p.side z ≠ side) (a : α) :
    Onward S h p p' (p.setPosition x side a) p' ∧
      Onward S h p p' p (p'.setPosition x side.mirror a) := by
  have hnode := hm.node x hk.mem hk.live
  have hmirror : side.mirror = .left ∨ side.mirror = .right := by
    rcases hrow with rfl | rfl
    · exact Or.inr rfl
    · exact Or.inl rfl
  have hside : ∀ w, (p.node x).owner = some w → p.side w ≠ side := by
    intro w hw
    rw [hk.owner] at hw
    cases hw
    exact hne
  constructor
  · have ho : Onward S h p p' (p.setPosition x side a) (p'.update x fun n => n) :=
      hm.update hk.mem hk.live (fun _ => rfl) (fun _ => rfl)
        (hnode.setPosition_row hrow a).1 (fun w hw hlead => by
          unfold Node.Leads at hlead ⊢
          change _ = (Offsets.set _ side a).get (p.side w)
          rw [Offsets.get_set, if_neg (hside w hw), hlead])
        (hm.memory x hk.mem hk.live) (Or.inr rfl)
    rwa [update_self] at ho
  · have ho : Onward S h p p' (p.update x fun n => n) (p'.setPosition x side.mirror a) :=
      hm.update hk.mem hk.live (fun _ => rfl) (fun _ => rfl)
        (hnode.setPosition_row hmirror a).2 (fun w hw hlead => by
          have hw := hside w hw
          unfold Node.Leads at hlead ⊢
          change (Offsets.set _ side.mirror a).get (p.side w).mirror = _
          rw [Offsets.get_set, if_neg, hlead]
          intro he
          apply hw
          rw [← (p.side w).mirror_mirror, he, side.mirror_mirror])
        (hm.memory x hk.mem hk.live) (Or.inr rfl)
    rwa [update_self] at ho

theorem setTrailing_onward {axis : FlexDirection} (haxis : axis = c.mainAxis ∨ axis = c.crossAxis)
    (hc : Host S h c xs p p') (hx : x ∈ xs) :
    Onward S h p p' (if axis.isReverse then p.setTrailing c axis x else p)
      (if axis.mirror.isReverse then p'.setTrailing (c.turn true) axis.mirror x else p') := by
  have hk := hc.kids x hx
  have hstarts := hc.starts axis haxis
  cases axis with
  | column => exact .refl hc.mirrored
  | columnReverse =>
    have hn := hc.kid hx
    have hplace : (p'.node x).geometry.position.get .bottom =
      (p.node x).geometry.position.get .bottom := hn.leads_column .bottom rfl
    have hsize : (p'.node c.id).measuredSize .columnReverse =
      (p.node c.id).measuredSize .columnReverse :=
      hc.node.same (fun n => n.measuredSize .columnReverse) fun _ _ _ => rfl
    simp only [FlexDirection.isReverse, FlexDirection.mirror, if_true]
    unfold setTrailing
    dsimp only [FlexDirection.leading]
    rw [Container.turn_id, hsize, hn.measuredSize, hplace]
    exact hc.mirrored.put hk.mem hk.live .top fun _ => rfl
  | row =>
    exact (hc.mirrored.setPosition_end hk .right (Or.inr rfl) (by rw [hstarts rfl]; decide) _).2
  | rowReverse =>
    exact (hc.mirrored.setPosition_end hk .left (Or.inl rfl) (by rw [hstarts rfl]; decide) _).1

/-- Visitors that answer a request and its mirror image alike, to a depth of `h`. -/
structure Mirrors (S : Set NodeId) (h : Nat) (v v' : Visitor α) : Prop where
  attentive : Attentive v
  visit : ∀ p p' x r, Mirrored S p p' → x ∈ S → p.tree.Live x → (p.tree.unfold h x).isSome →
    r.ownerDirection = .ltr → Onward S h p p' (v x r p) (v' x r.mirror p')

/-- What two passes agree on about the children of a container that were as in `b`. -/
def Images (b : Pass α) (c : Container α) (p p' : Pass α) : Fact → Prop
  | .started x => x ∈ b.children c.id → Headed p p' x
  | .cleared x => x ∈ b.children c.id → Imaged p p' x
  | .sized _ | .based _ | .lined _ | .measured _ => True

theorem Onward.images {b : Pass α} {a : Fact} (ho : Onward S h p p' q q')
    (hk : ∀ x ∈ b.children c.id, Kid S h p c.id x) (ha : Images b c p p' a) :
    Images b c q q' a := by
  cases a with
  | started x => exact fun hx => ho.headed_kid (hk x hx) (ha hx)
  | cleared x => exact fun hx => ho.imaged_kid (hk x hx) (ha hx)
  | sized | based | lined | measured => trivial

/-- A pass and its image in one container. -/
def imaging (S : Set NodeId) (h : Nat) (c : Container α) (p p' : Pass α) (v v' : Visitor α) :
    Pairing α where
  e := true
  c := c
  base := p
  visit := v
  visit' := v'
  keeps _ := true
  Holds K q q' := Onward S h p p' q q' ∧ ∀ a ∈ K, Images p c q q' a
  Loud _ := False

variable [Std.Commutative (fun a b : α => a + b)]

theorem imaging_tandem (hv : Mirrors S h v v') (hc : Host S h c (p.children c.id) p p') :
    Tandem (imaging S h c p p' v v') := by
  have hhost : ∀ {K : Set Fact} {q q' : Pass α}, (imaging S h c p p' v v').Sees K q q' →
      Host S h c (p.children c.id) q q' := fun hs => hs.holds.1.host hc
  have hstep : ∀ {K L : Set Fact} {q q' u u' : Pass α}, (imaging S h c p p' v v').Sees K q q' →
      Onward S h q q' u u' → (∀ a ∈ L, a ∈ K ∨ Images p c u u' a) →
      (imaging S h c p p' v v').Holds L u u' := fun hs ho hL =>
    ⟨hs.holds.1.trans ho, fun a hin => (hL a hin).elim
      (fun hk => ho.images (hhost hs).kids (hs.holds.2 a hk)) id⟩
  have hsame : ∀ {K : Set Fact} {q q' u u' : Pass α}, (imaging S h c p p' v v').Sees K q q' →
      Onward S h q q' u u' → (imaging S h c p p' v v').Holds K u u' := fun hs ho =>
    hstep hs ho fun _ hin => Or.inl hin
  have hinsert : ∀ {K : Set Fact} {f : Fact} {q q' u u' : Pass α},
      (imaging S h c p p' v v').Sees K q q' → Onward S h q q' u u' → Images p c u u' f →
      (imaging S h c p p' v v').Holds (insert f K) u u' := fun hs ho hf =>
    hstep hs ho fun a hin => hin.elim (fun he => Or.inr (he ▸ hf)) Or.inl
  have hnote : ∀ {K : Set Fact} {q q' : Pass α}, (imaging S h c p p' v v').Sees K q q' →
      (imaging S h c p p' v v').Holds K
        (q.updateGeometry c.id fun g => { g with hadOverflow := true })
        (q'.updateGeometry c.id fun g => { g with hadOverflow := true }) := fun hs =>
    hsame hs ((hhost hs).mirrored.write hc.mem (hhost hs).live)
  have hmirrors : ∀ {n m : Node α}, n.Reflects m → n.style.Undirected →
      n.Faces true m ∧ n.Level m := fun hn hu => ⟨hn.faces, hn.level hu⟩
  have howned : ∀ x ∈ p.tree.childrenOf c.id, p.tree.ownerOf x = some c.id := by
    intro x hx
    rw [← children_eq hc.live] at hx
    rw [Tree.ownerOf_eq (node_eq (hc.kids x hx).live), (hc.kids x hx).owner]
  exact {
    mover := hv.attentive.moves
    household := ⟨(Ready.univ hc.mirrored.sound hc.live).held, howned⟩
    spares := fun _ hno => nomatch hno
    louder := fun _ hl => hl
    mono := fun hL hk => ⟨hk.1, fun a ha => hk.2 a (hL ha)⟩
    parent := fun hs => hmirrors (hhost hs).node (hhost hs).undirected
    kid := fun hs hx => hmirrors ((hhost hs).kid hx.1) ((hhost hs).kid_undirected hx.1)
    listed := fun hs => (hhost hs).node.children.trans (List.filter_true _).symm
    direction := by
      intro K q q' hs
      obtain ⟨_, _, _, he⟩ := (hhost hs).node
      exact congrArg (fun n => n.geometry.direction) he
    size := fun hs hx _ => ((hhost hs).kid hx.1).same Node.resolvedSize fun _ _ _ => rfl
    basis := fun hs hx _ =>
      ((hhost hs).kid hx.1).same (fun n => n.geometry.flexBasis) fun _ _ _ => rfl
    line := fun hs hx _ => ((hhost hs).kid hx.1).same Node.line fun _ _ _ => rfl
    measure := by
      rintro K q q' x hs (rfl | hx) _
      · exact (hhost hs).node.same (fun n => n.geometry.measured) fun _ _ _ => rfl
      · exact ((hhost hs).kid hx.1).same (fun n => n.geometry.measured) fun _ _ _ => rfl
    stale := by
      intro K q q' x hs hx
      rw [hs.holds.1.mirrored.generation]
      exact ((hhost hs).kid hx.1).same (Container.basisIsStale · q.generation) fun _ _ _ => rfl
    kept := fun hs _ _ => hinsert hs (.refl hs.holds.1.mirrored) trivial
    count := fun hs _ => hsame hs (hs.holds.1.mirrored.count fun _ => le_rfl)
    overflow := hnote
    legacy := fun hs => hsame hs ((hhost hs).mirrored.write hc.mem (hhost hs).live)
    heed := by
      intro K q q' x hs hx
      rw [((hhost hs).kid hx.1).same (fun n => n.geometry.hadOverflow) fun _ _ _ => rfl]
      exact (hs.noteIf _ (hnote hs)).holds
    setMeasured := fun hs width height =>
      hinsert hs ((hhost hs).mirrored.setMeasured hc.mem (hhost hs).live width height) trivial
    resolve := fun hs hx =>
      have hk := (hhost hs).kids _ hx.1
      have hm' := (hhost hs).mirrored
      hinsert hs (hm'.update hk.mem hk.live (fun _ => rfl) (fun _ => rfl)
        (hm'.node _ hk.mem hk.live).resolveSize (fun _ _ hlead => hlead)
        (hm'.memory _ hk.mem hk.live) (Or.inr rfl)) trivial
    clear := by
      intro K q q' x hs hx
      obtain ⟨ho, hhead, himage⟩ := zeroOut_kid (hhost hs).mirrored ((hhost hs).kids x hx.1)
      refine Or.inr ?_
      rw [(hhost hs).mirrored.depth]
      refine hstep hs ho ?_
      rintro a (hin | rfl | rfl | rfl)
      · exact Or.inl hin
      · exact Or.inr fun _ => hhead
      · exact Or.inr trivial
      · exact Or.inr fun _ => himage
    start := fun hs hx hl =>
      have hstart := placeAtStart_onward (hhost hs) hx.1
      hinsert hs hstart.1 fun _ => hstart.2 hl
    setBasis := by
      intro K q q' x hs hx basis
      have hk := (hhost hs).kids x hx.1
      refine hinsert hs ?_ trivial
      rw [Pass.setBasis, Pass.setBasis, (hhost hs).mirrored.generation]
      exact (hhost hs).mirrored.write hk.mem hk.live
    setLine := fun hs hx number =>
      have hk := (hhost hs).kids _ hx.1
      hinsert hs ((hhost hs).mirrored.write hk.mem hk.live) trivial
    shift := fun hs hx side f =>
      have hk := (hhost hs).kids _ hx.1
      hsame hs ((hhost hs).mirrored.put hk.mem hk.live side fun hlead => congrArg f hlead)
    setTrailing := fun hs hx haxis _ _ _ => hsame hs (setTrailing_onward haxis (hhost hs) hx.1)
    baseline := by
      intro K q q' x hs hx _
      have hk := (hhost hs).kids x hx.1
      obtain ⟨hvalue, ho⟩ :=
        baselineWithin_onward (h := h) q.depth (hhost hs).mirrored hk.mem hk.live
      rw [Pass.baseline, Pass.baseline, (hhost hs).mirrored.depth]
      exact ⟨hvalue, hsame hs ho⟩
    ask := by
      intro K q q' x r hs hx hr
      have hk := (hhost hs).kids x hx.1
      have hltr : r.ownerDirection = .ltr :=
        hr.elim (fun he => he.trans hc.facing) fun he => he.trans (hhost hs).direction
      exact Or.inr (hinsert hs
        (hv.visit q q' x r (hhost hs).mirrored hk.mem hk.live hk.deep hltr) trivial) }

omit [Std.Commutative (fun a b : α => a + b)] in
/-- All below a node that was laid out in full is placed alike: leaves have nothing below them, and
others remember the layout. -/
theorem Mirrored.shown (hm : Mirrored S p p') (hx : x ∈ S) (hs : Shown x p) : Imaged p p' x := by
  cases hmeasure : (p.node x).measure with
  | some measure =>
    exact imaged_of_childless hs.live
      (hm.sound.arena.leaf (node_eq hs.live) (by rw [hmeasure]; rfl))
  | none => exact hm.memory x hx hs.live (hs.memory hmeasure)

section

variable (hv : Mirrors S h v v') (r : Request α) (hm : Mirrored S p p') (hx : x ∈ S)
  (hl : p.tree.Live x) (hd : (p.tree.unfold (h + 1) x).isSome)
  (hhigh : ¬ (p.tree.unfold h x).isSome) (hltr : (p.node x).geometry.direction = .ltr)

include hv hm hx hl hd hhigh hltr

theorem layContainer_images :
    Onward S h p p' (p.layContainer v x .ltr r) (p'.layContainer v' x .rtl r.mirror) ∧
      ∀ y ∈ (p.layContainer v x .ltr r).children x,
        Kid S h (p.layContainer v x .ltr r) x y ∧
        (((p.layContainer v x .ltr r).node y).isHidden = true →
          Imaged (p.layContainer v x .ltr r) (p'.layContainer v' x .rtl r.mirror) y) ∧
        (r.performLayout = true →
          Headed (p.layContainer v x .ltr r) (p'.layContainer v' x .rtl r.mirror) y) := by
  obtain ⟨hown, -, hkids⟩ := hm.own_kids (h := h) hx hl hd
  have hlu := hown.moves.live hm.sound hl
  have hclear : Onward S h (p.ownChildren x) (p'.ownChildren x) (p.enter x) (p'.enter x) :=
    hown.mirrored.write hx hlu
  have hlist := hclear.children hlu hkids
  have hkids := fun y hy => hclear.kid (hkids y hy)
  have hq := hown.trans hclear
  rw [layContainer_eq, layContainer_eq]
  generalize p.enter x = q at hq hlist hkids ⊢
  generalize p'.enter x = q' at hq ⊢
  have hlq := hq.moves.live hm.sound hl
  dsimp only
  rw [Container.ofRequest_mirror (hq.mirrored.node x hx hlq) (hq.mirrored.undirected x hx hlq)]
  have hdirection : (q.node x).geometry.direction = .ltr := by rw [hq.still x hx hl hhigh, hltr]
  rw [← hq.moves.unfold hm.sound hl] at hhigh
  rw [← hlist] at hkids
  have hc : Host S h (Container.ofRequest (q.node x) x .ltr r) (q.children x) q q' :=
    ⟨hq.mirrored, hx, hlq, hhigh, hdirection, rfl,
      fun _ haxis hrow => FlexDirection.rowSide_ltr haxis hrow, rfl, hkids⟩
  have hgo := (imaging_tandem hv hc).layContent r
    ⟨Moves.refl q, .refl hq.mirrored, fun _ hno => hno.elim⟩
  obtain ⟨-, ho, hfacts⟩ := hgo.agree.resolve_left id
  have hsame := ho.children hlq hkids
  refine ⟨hq.trans ho, fun y hy => ?_⟩
  have hy : y ∈ q.children x := hsame ▸ hy
  have hkind := ho.moves.kind hq.mirrored.sound (hkids y hy).live
  exact ⟨ho.kid (hkids y hy),
    fun hh => hfacts _ (.cleared ⟨hy, rfl⟩ (hkind.1.symm.trans hh)) hy,
    fun hlayout => hfacts _ (.started hlayout ⟨hy, rfl⟩) hy⟩

theorem layContainer_onward :
    Onward S h p p' (p.layContainer v x .ltr r) (p'.layContainer v' x .rtl r.mirror) ∧
      (r.performLayout = true →
        Imaged (p.layContainer v x .ltr r) (p'.layContainer v' x .rtl r.mirror) x) := by
  obtain ⟨ho, hkids⟩ := layContainer_images hv r hm hx hl hd hhigh hltr
  refine ⟨ho, fun hlayout => imaged_of_kids (S := S) (h := h) (ho.moves.live hm.sound hl)
    (fun y hy => (hkids y hy).1) fun y hy => ?_⟩
  obtain ⟨hkid, hclear, hhead⟩ := hkids y hy
  refine ⟨hhead hlayout, ?_⟩
  cases hhidden : ((p.layContainer v x .ltr r).node y).isHidden with
  | true => exact hclear hhidden
  | false =>
    exact ho.mirrored.shown hkid.mem
      (layContainer_served hv.attentive hm.sound ⟨h + 1, hd⟩ hlayout _ hy hhidden).toShown

end

end Pass

end Flexbox
