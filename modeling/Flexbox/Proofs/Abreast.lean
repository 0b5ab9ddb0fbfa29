import Flexbox.Proofs.Attending
import Flexbox.Proofs.Lockstep

namespace Flexbox

variable {α : Type}

namespace Node

variable {n m : Node α}

theorem SameCore.faces (h : SameCore n m) : n.Faces false m := by
  unfold Faces
  rw [h]
  rfl

end Node

namespace Pass

variable [Scalar α] {b p p' q q' : Pass α} {B : Set NodeId} {h : Nat} {x y z : NodeId}
  {v v' : Visitor α} {c : Container α} {layout : Bool}

/-- A node that passes to a depth of `h` may visit. -/
structure Member (b : Pass α) (B : Set NodeId) (h : Nat) (x : NodeId) : Prop where
  mem : x ∈ B
  deep : Deep b h x

/-- Visitors that answer alike to a depth of `h`, for as long as no old answer is taken. -/
structure Abreast (b : Pass α) (B : Set NodeId) (h : Nat) (v v' : Visitor α) : Prop where
  attentive : Attentive v
  attentive' : Attentive v'
  visit : ∀ {x r p p'}, Member b B h x → Twins b B p p' → Quiet b B (v x r p) →
    Along b B h p p' (v x r p) (v' x r p') ∧ At .measured x (v x r p) (v' x r p')

omit [Scalar α] in
theorem Retains.slots (hr : Retains b B p) (hx : Member b B h x) :
    Deep b p.tree.slots.size x :=
  (hr.deep hx.mem).mp (hr.grounded hx.mem hx.deep).unfold_slots

theorem Twins.depth (ht : Twins b B p p') (hx : Member b B h x) :
    ∃ k, Deep b k x ∧ k ≤ h ∧ k < p.depth ∧ k < p'.depth := by
  have hslots := ht.left.slots hx
  have hslots' := ht.right.slots hx
  refine ⟨min h (min p.tree.slots.size p'.tree.slots.size), ?_, by omega, ?_, ?_⟩
  · rcases min_choice h (min p.tree.slots.size p'.tree.slots.size) with he | he
    · rw [he]
      exact hx.deep
    · rw [he]
      rcases min_choice p.tree.slots.size p'.tree.slots.size with he | he <;> rw [he] <;> assumption
  all_goals
    unfold Pass.depth
    omega

omit [Scalar α] in
theorem Ground.member (hg : Ground b B) (hx : x ∈ B) (hd : Deep b (h + 1) x)
    (hy : y ∈ b.children x) : Member b B h y :=
  ⟨hg.closed x hx y hy, (Tree.unfold_isSome.mp hd).2 y (by rwa [← children_eq (hg.live x hx)])⟩

/-- What agrees on a hidden node once all below it is cleared away. -/
structure Cleared (b : Pass α) (x : NodeId) (q q' : Pass α) : Prop where
  measured : At .measured x q q'
  box : Boxed x q q'
  inner : Inner b x q q'

theorem Along.cleared (ha : Along b B h p p' q q') (hx : x ∈ B) (hc : Cleared b x p p') :
    Cleared b x q q' :=
  ⟨ha.at hx hc.measured, ha.keeps.boxed hx hc.box,
    ha.keeps.inner ha.twins.stage.toGround hx hc.inner⟩

theorem inner_of_children
    (hc : ∀ y ∈ b.children x, Boxed y p p' ∧ Inner b y p p') : Inner b x p p' := by
  intro y hy
  obtain ⟨d, hd, hrest⟩ := (Relation.TransGen.head'_iff).mp hy
  rcases Relation.reflTransGen_iff_eq_or_transGen.mp hrest with rfl | hrest
  · exact (hc _ hd).1
  · exact (hc d hd).2 y hrest

theorem Twins.clear (ht : Twins b B p p') (hx : Member b B h x) :
    Along b B h p p' (p.update x Node.emptied) (p'.update x Node.emptied) ∧
      ∀ part, part ≠ .line → part ≠ .preferred →
        At part x (p.update x Node.emptied) (p'.update x Node.emptied) := by
  have htwin := ht.twin x hx.mem
  refine ⟨ht.update hx.mem (fun _ => rfl) (fun _ => rfl) ⟨htwin.left.trans rfl,
    htwin.right.trans rfl, nofun, ⟨rfl, nofun, Or.inl rfl⟩,
    ⟨Or.inl rfl, Or.inl rfl⟩, Or.inl ⟨rfl, rfl, rfl⟩⟩ (fun part ha => ?_)
    (fun hne => absurd rfl hne) (Or.inl hx.deep), fun part hline hpref => ?_⟩
  · cases part with
    | side | size | basis | measured => rfl
    | edges => exact ⟨rfl, rfl, rfl, rfl⟩
    | line | preferred => exact ha
  · refine at_update (ht.live x hx.mem) (ht.live' x hx.mem) ?_
    cases part with
    | side | size | basis | measured => rfl
    | edges => exact ⟨rfl, rfl, rfl, rfl⟩
    | line => exact absurd rfl hline
    | preferred => exact absurd rfl hpref

theorem zeroOut_along {k fuel fuel' : Nat} (hx : x ∈ B) (hd : Deep b k x) (hk : k ≤ h)
    (hf : k ≤ fuel) (hf' : k ≤ fuel') (ht : Twins b B p p') (hq : Quiet b B (zeroOut fuel x p)) :
    Along b B h p p' (zeroOut fuel x p) (zeroOut fuel' x p') ∧
      Cleared b x (zeroOut fuel x p) (zeroOut fuel' x p') := by
  induction k generalizing x fuel fuel' p p' with
  | zero => cases hd
  | succ k ih =>
    obtain ⟨fuel, rfl⟩ := exists_pred hf
    obtain ⟨fuel', rfl⟩ := exists_pred hf'
    rw [zeroOut_succ] at hq
    rw [zeroOut_succ, zeroOut_succ]
    obtain ⟨hclear, hat⟩ := ht.clear ⟨hx, Tree.unfold_isSome_mono hd hk⟩
    generalize p.update x _ = q at hclear hat hq ⊢
    generalize p'.update x _ = q' at hclear hat ⊢
    have ht' := hclear.twins
    have hl := ht'.left
    have hr := ht'.right
    rw [hl.ownChildren hx, hl.children hx] at hq
    rw [hl.ownChildren hx, hr.ownChildren hx, hl.children hx, hr.children hx]
    have hchild := fun y hy => ht.left.ground.member hx hd (y := y) hy
    obtain ⟨halong, hall⟩ := walk_along (Cleared b) (f := fun p y => zeroOut fuel y p)
      (g := fun p y => zeroOut fuel' y p) (l := b.children x)
      (fun y hy _ _ _ _ ha hc => ha.cleared (hchild y hy).mem hc) ht'
      (fun r y hy hm => zeroOut_moves fuel (hm.admitted (hl.ready (hchild y hy).mem).admitted))
      (fun r r' y hy ha hq => ih (hchild y hy).mem (hchild y hy).deep (by omega) (by omega)
        (by omega) ha.twins hq) hq
    have hall' := hclear.trans halong
    have hboth : ∀ part, part ≠ .line → part ≠ .preferred → At part x _ _ :=
      fun part hl hp => halong.at hx (hat part hl hp)
    refine ⟨hall', ⟨hboth _ (by simp) (by simp), ⟨fun s => hboth _ (by simp) (by simp),
      hboth _ (by simp) (by simp), hboth _ (by simp) (by simp)⟩, ?_⟩⟩
    exact inner_of_children fun y hy => ⟨(hall y hy).box, (hall y hy).inner⟩

theorem Twins.place (ht : Twins b B p p') (hx : x ∈ B) {f : Node α → Direction}
    (hf : f (p.node x) = f (p'.node x)) (main cross width : Extent α) :
    Along b B h p p' (p.redraw x fun n => n.placed (f n) main cross width)
        (p'.redraw x fun n => n.placed (f n) main cross width) ∧
      ∀ s, At (.side s) x (p.redraw x fun n => n.placed (f n) main cross width)
        (p'.redraw x fun n => n.placed (f n) main cross width) := by
  have hplace : ((p.node x).placed (f (p.node x)) main cross width).position =
      ((p'.node x).placed (f (p'.node x)) main cross width).position := by
    rw [hf]
    exact ((ht.core hx).kin.placed_position _ _ _ _).symm
  refine ⟨ht.write hx fun part ha => ?_, fun s =>
    at_update (ht.live x hx) (ht.live' x hx) (congrArg (fun o : Offsets α => o.get s) hplace)⟩
  cases part with
  | side s => exact congrArg (fun o : Offsets α => o.get s) hplace
  | size | edges | basis | measured | line | preferred => exact ha

theorem placeAtStart_along (c : Container α) (ht : Twins b B p p') (hx : x ∈ B) :
    Along b B h p p' (p.placeAtStart c x) (p'.placeAtStart c x) ∧
      (c.performLayout = true →
        ∀ s, At (.side s) x (p.placeAtStart c x) (p'.placeAtStart c x)) := by
  unfold placeAtStart
  by_cases hl : c.performLayout = true
  · simp only [hl, if_true]
    obtain ⟨halong, hsides⟩ := ht.place (h := h) hx (f := fun n => n.resolveDirection c.direction)
      (by rw [ht.core hx]; rfl) c.innerMain c.innerCross c.innerWidth
    exact ⟨halong, fun _ => hsides⟩
  · simp only [hl, Bool.false_eq_true, if_false]
    exact ⟨.refl ht, fun hl => by cases hl⟩

theorem Stage.hasBaselineChildren (hs : Stage b B) (hr : Retains b B q) (hx : x ∈ B) :
    q.hasBaselineChildren x = false := by
  have hself := beq_eq_false_iff_ne.mpr (hs.alignItems x hx)
  have hlist : (q.node x).children = b.children x := hr.children hx
  unfold Pass.hasBaselineChildren
  dsimp only
  rw [hlist, hr.style hx]
  split
  · rfl
  · rw [hself, Bool.false_or, List.any_eq_false]
    intro y hy
    have hy := hs.closed x hx y hy
    simp [hr.style hy, hs.alignSelf y hy]

theorem Twins.alignOf (ht : Twins b B p p') (hz : c.id ∈ B) (hx : x ∈ B) :
    (p'.node c.id).alignOf (p'.node x) = (p.node c.id).alignOf (p.node x) ∧
      (p.node c.id).alignOf (p.node x) ≠ .baseline := by
  have hitems := ht.stage.alignItems c.id hz
  have hself := ht.stage.alignSelf x hx
  refine ⟨?_, ?_⟩
  · rw [ht.core hz, ht.core hx]
    rfl
  · unfold Node.alignOf
    rw [ht.left.style hz, ht.left.style hx]
    dsimp only
    split <;> split <;> simp_all

theorem At.measuredSize (ha : At .measured x p p') (axis : FlexDirection) :
    (p.node x).measuredSize axis = (p'.node x).measuredSize axis := by
  unfold Node.measuredSize Geometry.measuredSize
  rw [show (p.node x).geometry.measured = (p'.node x).geometry.measured from ha]

theorem setTrailing_along (axis : FlexDirection) (ht : Twins b B p p') (hx : x ∈ B)
    (hside : At (.side axis.leading) x p p') (hm : At .measured x p p')
    (hm' : At .measured c.id p p') :
    Along b B h p p' (p.setTrailing c axis x) (p'.setTrailing c axis x) := by
  have hsize : (p'.node x).geometry.measuredSize axis.dimension =
      (p.node x).geometry.measuredSize axis.dimension := (hm.measuredSize axis).symm
  unfold setTrailing
  dsimp only
  rw [← hm'.measuredSize, hsize, show Offsets.get _ _ = Offsets.get _ _ from hside.symm]
  exact ht.shiftBy hx _ fun _ => _

/-- What the facts about a node say of two passes in lockstep. -/
def Attests (b : Pass α) (B : Set NodeId) (q q' : Pass α) : Fact → Prop
  | .sized x => x ∈ B → At .preferred x q q'
  | .started x => x ∈ B → ∀ s, At (.side s) x q q'
  | .based x => x ∈ B → At .basis x q q'
  | .lined x => x ∈ B → At .line x q q'
  | .measured x => x ∈ B → At .measured x q q'
  | .cleared x => x ∈ B → Cleared b x q q'

theorem Along.attests (ha : Along b B h p p' q q') {a : Fact} (hf : Attests b B p p' a) :
    Attests b B q q' a := by
  cases a with
  | sized | based | lined | measured => exact fun hx => ha.at hx (hf hx)
  | started => exact fun hx s => ha.at hx (hf hx s)
  | cleared => exact fun hx => ha.cleared hx (hf hx)

/-- Two passes in lockstep in a container, for as long as the left one is quiet. -/
def abreast (b : Pass α) (B : Set NodeId) (h : Nat) (c : Container α) (p p' : Pass α)
    (v v' : Visitor α) : Pairing α where
  e := false
  c := c
  base := p
  visit := v
  visit' := v'
  keeps _ := true
  Holds K q q' := Along b B h p p' q q' ∧ ∀ a ∈ K, Attests b B q q' a
  Loud q := ¬ Quiet b B q

theorem abreast_tandem (hv : Abreast b B h v v') (ht : Twins b B p p') (hz : c.id ∈ B)
    (hd : Deep b (h + 1) c.id) (hedges : At .edges c.id p p') :
    Tandem (abreast b B h c p p' v v') := by
  have hlist := ht.left.children hz
  have hmem : ∀ {x}, (abreast b B h c p p' v v').Kid x → Member b B h x := fun hx =>
    ht.left.ground.member hz hd (hlist ▸ hx.1)
  have hstep : ∀ {K L : Set Fact} {q q' u u' : Pass α}, (abreast b B h c p p' v v').Sees K q q' →
      Along b B h q q' u u' → (∀ a ∈ L, a ∈ K ∨ Attests b B u u' a) →
      (abreast b B h c p p' v v').Holds L u u' := fun hs ha hL =>
    ⟨hs.holds.1.trans ha, fun a hin => (hL a hin).elim (fun hk => ha.attests (hs.holds.2 a hk)) id⟩
  have hsame : ∀ {K : Set Fact} {q q' u u' : Pass α}, (abreast b B h c p p' v v').Sees K q q' →
      Along b B h q q' u u' → (abreast b B h c p p' v v').Holds K u u' := fun hs ha =>
    hstep hs ha fun _ hin => Or.inl hin
  have hinsert : ∀ {K : Set Fact} {f : Fact} {q q' u u' : Pass α},
      (abreast b B h c p p' v v').Sees K q q' → Along b B h q q' u u' → Attests b B u u' f →
      (abreast b B h c p p' v v').Holds (insert f K) u u' := fun hs ha hf =>
    hstep hs ha fun a hin => hin.elim (fun he => Or.inr (he ▸ hf)) Or.inl
  have hnote : ∀ {q q' : Pass α}, Twins b B q q' → ∀ condition condition' : Bool, Along b B h q q'
      (q.updateGeometryIf condition c.id fun g => { g with hadOverflow := true })
      (q'.updateGeometryIf condition' c.id fun g => { g with hadOverflow := true }) := fun ht =>
    ht.note hz (fun _ => ⟨rfl, rfl, rfl, rfl, rfl, rfl, rfl, rfl⟩)
      fun _ _ part ha => by cases part <;> exact ⟨ha, ha⟩
  have hcore : ∀ {n m : Node α}, Node.SameCore n m → n.Faces false m ∧ n.Level m := fun hc =>
    ⟨hc.faces, hc.faces.level⟩
  exact {
    mover := hv.attentive.moves
    household := ⟨(ht.left.ready hz).held, ht.left.owned hz⟩
    spares := fun _ hno => nomatch hno
    louder := fun hm hl hq => hl (hm.quiet hq)
    mono := fun hL hk => ⟨hk.1, fun a ha => hk.2 a (hL ha)⟩
    parent := fun hs => hcore (hs.holds.1.twins.core hz)
    kid := fun hs hx => hcore (hs.holds.1.twins.core (hmem hx).mem)
    listed := fun hs =>
      (congrArg Node.children (hs.holds.1.twins.core hz)).trans (List.filter_true _).symm
    direction := fun hs => (hs.holds.1.at hz hedges).1.symm
    size := by
      intro K q q' x hs hx hk
      obtain ⟨hl, hr⟩ := hs.holds.2 _ hk (hmem hx).mem
      rw [hl, hr, hs.holds.1.twins.core (hmem hx).mem]
      rfl
    basis := fun hs hx hk => (hs.holds.2 _ hk (hmem hx).mem).symm
    line := fun hs hx hk => (hs.holds.2 _ hk (hmem hx).mem).symm
    measure := by
      rintro K q q' x hs (rfl | hx) hk
      · exact (hs.holds.2 _ hk hz).symm
      · exact (hs.holds.2 _ hk (hmem hx).mem).symm
    stale := fun hs hx => (hs.holds.1.twins.twin _ (hmem hx).mem).bases.stale.symm
    kept := fun hs hx hfresh => hinsert hs (.refl hs.holds.1.twins) fun _ =>
      (hs.holds.1.twins.twin _ (hmem hx).mem).bases.agree hfresh
    count := fun hs _ => hsame hs (hs.holds.1.twins.count _ _)
    overflow := fun hs => hsame hs (hnote hs.holds.1.twins true true)
    legacy := fun hs =>
      hsame hs (hs.holds.1.twins.write hz fun part ha => by cases part <;> exact ha)
    heed := fun hs _ => hsame hs (hnote hs.holds.1.twins _ _)
    setMeasured := fun hs width height =>
      have hset := hs.holds.1.twins.setMeasured hz width height
      hinsert hs hset.1 fun _ => hset.2
    resolve := fun hs hx =>
      have hres := hs.holds.1.twins.resolveSize (hmem hx).mem
      hinsert hs hres.1 fun _ => hres.2
    clear := by
      intro K q q' x hs hx
      by_cases hq : Quiet b B (zeroOut q.depth x q)
      · obtain ⟨k, hk, hkh, hleft, hright⟩ := hs.holds.1.twins.depth (hmem hx)
        obtain ⟨ha, hclear⟩ := zeroOut_along (hmem hx).mem hk hkh hleft.le hright.le
          hs.holds.1.twins hq
        refine Or.inr (hstep hs ha ?_)
        rintro a (hin | rfl | rfl | rfl)
        · exact Or.inl hin
        · exact Or.inr fun _ => hclear.box.side
        · exact Or.inr fun _ => hclear.measured
        · exact Or.inr fun _ => hclear
      · exact Or.inl hq
    start := fun hs hx hl =>
      have hstart := placeAtStart_along c hs.holds.1.twins (hmem hx).mem
      hinsert hs hstart.1 fun _ => hstart.2 hl
    setBasis := fun hs hx basis =>
      have hset := hs.holds.1.twins.setBasis (hmem hx).mem basis
      hinsert hs hset.1 fun _ => hset.2
    setLine := by
      intro K q q' x hs hx number
      have ht' := hs.holds.1.twins
      have hB := (hmem hx).mem
      refine hinsert hs (ht'.write hB fun part hpart => ?_)
        fun _ => at_update (ht'.live x hB) (ht'.live' x hB) rfl
      cases part with
      | line => rfl
      | side | size | edges | basis | measured | preferred => exact hpart
    shift := fun hs hx side f => hsame hs (hs.holds.1.twins.shiftBy (hmem hx).mem side f)
    setTrailing := by
      intro K q q' x axis hs hx _ hstart hm hm'
      have hB := (hmem hx).mem
      refine hsame hs ?_
      change Along b B h q q' (if axis.isReverse then _ else q) (if axis.isReverse then _ else q')
      split
      · exact setTrailing_along axis hs.holds.1.twins hB (hs.holds.2 _ hstart hB _)
          (hs.holds.2 _ hm hB) (hs.holds.2 _ hm' hz)
      · exact .refl hs.holds.1.twins
    baseline := by
      rintro K q q' x hs hx (hline | hline)
      · cases hline.symm.trans (ht.stage.hasBaselineChildren ht.left hz)
      · exact absurd hline.2 (ht.alignOf hz (hmem hx).mem).2
    ask := by
      intro K q q' x r hs hx _
      by_cases hq : Quiet b B (v x r q)
      · obtain ⟨ha, hm⟩ := hv.visit (hmem hx) hs.holds.1.twins hq
        exact Or.inr (hinsert hs ha fun _ => hm)
      · exact Or.inl hq }

/-- Where both passes have laid out a node in full, all below it agrees if its size does. -/
theorem Twins.shown (ht : Twins b B p p') (hx : x ∈ B) (hs : Shown x p) (hs' : Shown x p')
    (hm : At .measured x p p') : At .size x p p' ∧ At .edges x p p' ∧ Inner b x p p' := by
  have hmemory := hs'.memory (by
    rw [(ht.twin x hx).right]
    exact ht.stage.unmeasured x hx)
  refine ⟨?_, ?_, ht.inner x hx hmemory⟩
  · exact hs.size.trans (hm.trans hs'.size.symm)
  · exact ((ht.twin x hx).asked.resolve_left fun hno => hmemory hno.2.2).edges

/-- What agrees on a node once both passes have worked out its layout. -/
structure Solved (b : Pass α) (x : NodeId) (layout : Bool) (q q' : Pass α) : Prop where
  measured : At .measured x q q'
  inner : layout = true → Inner b x q q'

section

variable (hv : Abreast b B h v v') (direction : Direction) (r : Request α) (ht : Twins b B p p')
  (hx : x ∈ B) (hd : Deep b (h + 1) x) (hedges : At .edges x p p')
  (hq : Quiet b B (p.layContainer v x direction r))

include hv ht hx hd hedges hq

theorem layContainer_attests :
    Along b B h p p' (p.layContainer v x direction r) (p'.layContainer v' x direction r) ∧
      At .measured x (p.layContainer v x direction r) (p'.layContainer v' x direction r) ∧
      ∀ y ∈ b.children x,
        ((b.node y).isHidden = true →
          Cleared b y (p.layContainer v x direction r) (p'.layContainer v' x direction r)) ∧
        (r.performLayout = true →
          At .measured y (p.layContainer v x direction r) (p'.layContainer v' x direction r) ∧
          ∀ s, At (.side s) y (p.layContainer v x direction r)
            (p'.layContainer v' x direction r)) := by
  have henter : Along b B h p p' (p.enter x) (p'.enter x) := by
    unfold enter
    rw [ht.left.ownChildren hx, ht.right.ownChildren hx]
    exact ht.write hx fun part ha => by cases part <;> exact ha
  rw [layContainer_eq] at hq
  rw [layContainer_eq, layContainer_eq]
  generalize p.enter x = q at henter hq ⊢
  generalize p'.enter x = q' at henter ⊢
  have hcontainer : Container.ofRequest (q'.node x) x direction r =
      Container.ofRequest (q.node x) x direction r := by
    rw [henter.twins.core hx]
    rfl
  rw [hcontainer]
  have hT := abreast_tandem (c := .ofRequest (q.node x) x direction r) hv henter.twins hx hd
    (henter.at hx hedges)
  have hgo := hT.layContent r ⟨Moves.refl q, .refl henter.twins, fun _ hno => hno.elim⟩
  obtain ⟨-, halong, hfacts⟩ := hgo.agree.resolve_left fun hno => hno hq
  refine ⟨henter.trans halong, hfacts _ .sized hx, fun y hy => ?_⟩
  have hkid : y ∈ q.children x := by rwa [henter.twins.left.children hx]
  have hyB := ht.stage.closed x hx y hy
  exact ⟨fun hh => hfacts _ (.cleared ⟨hkid, rfl⟩ ((henter.twins.left.isHidden hyB).trans hh)) hyB,
    fun hl => ⟨hfacts _ (.measured hl ⟨hkid, rfl⟩) hyB, hfacts _ (.started hl ⟨hkid, rfl⟩) hyB⟩⟩

theorem layContainer_along :
    Along b B h p p' (p.layContainer v x direction r) (p'.layContainer v' x direction r) ∧
      Solved b x r.performLayout (p.layContainer v x direction r)
        (p'.layContainer v' x direction r) := by
  obtain ⟨halong, hmeasured, hkids⟩ := layContainer_attests hv direction r ht hx hd hedges hq
  have hl := halong.twins.left
  have hr := halong.twins.right
  refine ⟨halong, hmeasured, fun hfull => inner_of_children fun y hy => ?_⟩
  have hyB := ht.stage.closed x hx y hy
  obtain ⟨hclear, hlaid⟩ := hkids y hy
  cases hhidden : (b.node y).isHidden with
  | true => exact ⟨(hclear hhidden).box, (hclear hhidden).inner⟩
  | false =>
    have hshown := layContainer_served hv.attentive ht.sound (ht.left.grounded hx hd) hfull
      direction (by rwa [hl.children hx]) ((hl.isHidden hyB).trans hhidden)
    have hshown' := layContainer_served hv.attentive' ht.sound' (ht.right.grounded hx hd) hfull
      direction (by rwa [hr.children hx]) ((hr.isHidden hyB).trans hhidden)
    obtain ⟨hm, hsides⟩ := hlaid hfull
    obtain ⟨hsize, hedges, hinner⟩ := halong.twins.shown hyB hshown.toShown hshown'.toShown hm
    exact ⟨⟨hsides, hsize, hedges⟩, hinner⟩

end

end Pass

end Flexbox
