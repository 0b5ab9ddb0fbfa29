import Flexbox.Proofs.Sizing.Passes

namespace Flexbox

variable {α : Type} [Scalar α]

open Scalar (IsNumber IsFinite Lawful)

namespace Node

variable {n m : Node α} {d : Dimension} {M : α}

section

variable (h : SameCore n m)

include h

theorem SameCore.capped (hc : m.Capped d M) : n.Capped d M := by
  rw [h] at hc
  exact ⟨hc.upper, hc.nonneg, hc.finite, hc.lower, hc.frame⟩

theorem SameCore.pinned (hc : m.Pinned d M) : n.Pinned d M := by
  refine ⟨h.capped hc.toCapped, ?_⟩
  have hsame := hc.same
  rw [h] at hsame
  exact hsame

theorem SameCore.balanced {width : Extent α} : m.Balanced width ↔ n.Balanced width := by
  rw [h]
  rfl

theorem SameCore.degenerate : m.Degenerate ↔ n.Degenerate := by
  rw [h]
  rfl

theorem SameCore.suits {o : Offer α} (hs : n.Suits d o) : m.Suits d o :=
  ⟨fun hd => hs.sound fun hn => hd (h.degenerate.mpr hn), fun M hM => hs.pinned M (h.pinned hM)⟩

end

end Node

theorem Extent.max_number {α : Type} [Scalar α] [Lawful α] {e : Extent α} {frame a : α}
    (hf : IsNumber frame) (h : e.max (.of frame) = .known a) : IsNumber a := by
  rw [Extent.of_number hf] at h
  cases e with
  | undefined =>
    rw [← Extent.known.inj h]
    exact hf
  | known x =>
    rw [← Extent.known.inj h]
    exact Scalar.max_number (Or.inr hf)

theorem Container.planBasis_cases {α : Type} [Scalar α] (c : Container α) (generation : UInt32)
    (parent n : Node α) :
    (∃ axis, ∃ e : Extent α, c.planBasis generation parent n =
        .take (e.max (.of (n.frameFor axis c.innerWidth)))) ∨
      (c.planBasis generation parent n = .keep ∧ n.geometry.flexBasis.isDefined = true) ∨
      c.planBasis generation parent n =
        .measure (c.basisOffers parent n).1 (c.basisOffers parent n).2 := by
  unfold planBasis
  dsimp only
  generalize (if c.isRow then FlexDirection.row else .column) = axis
  split
  · split
    · exact Or.inl ⟨_, _, rfl⟩
    · rename_i hfresh
      simp only [basisIsStale, Bool.or_eq_true, not_or] at hfresh
      exact Or.inr (Or.inl ⟨rfl, by simpa [Extent.isUndefined] using hfresh.1.1⟩)
  split
  · exact Or.inl ⟨_, _, rfl⟩
  · exact Or.inr (Or.inr rfl)

theorem Container.planBasis_number {α : Type} [Scalar α] [Lawful α] {c : Container α}
    {generation : UInt32} {parent n : Node α} {basis : Extent α}
    (h : c.planBasis generation parent n = .take basis) :
    ∀ a, basis = .known a → IsNumber a := by
  intro a ha
  obtain ⟨axis, e, he⟩ | ⟨he, -⟩ | he := c.planBasis_cases generation parent n
  all_goals cases he.symm.trans h
  exact Extent.max_number (Node.frameFor_number axis c.innerWidth n) ha

theorem Container.basisOffers_of_measure {α : Type} [Scalar α] {c : Container α}
    {generation : UInt32} {parent n : Node α} {width height : Offer α}
    (h : c.planBasis generation parent n = .measure width height) :
    c.basisOffers parent n = (width, height) := by
  obtain ⟨_, _, he⟩ | ⟨he, -⟩ | he := c.planBasis_cases generation parent n
  all_goals cases he.symm.trans h
  rfl

namespace Pass

variable {b p q : Pass α} {B D : Set NodeId} {h : Nat} {x y : NodeId}
  {r : Request α} {c : Container α} {v : Visitor α}

/-- A request has sound offers and pins what is to be pinned, or there is an excuse once it is
made. -/
structure Asked (b p : Pass α) (x : NodeId) (r : Request α) : Prop where
  proper : ∀ source, Proper b.node (⟨x, r, source⟩ :: p.trail) ⟨x, r, source⟩
  firm : ∀ source d M, (b.node x).Pinned d M →
    Strained b.node (⟨x, r, source⟩ :: p.trail) x ∨ (r.offer d).Firm

/-- Answers requests to nodes no deeper than `h` with sizes that keep to their bounds. -/
structure Sizes (b : Pass α) (B D : Set NodeId) (h : Nat) (v : Visitor α) : Prop where
  attentive : Attentive v
  visit : ∀ {x r p}, Member b B h x → Kept b B D p → (p.node x).IsSized → Asked b p x r →
    Goes b B D h p (v x r p)

/-- The pass is at work on a container. -/
structure Hosting (b : Pass α) (B D : Set NodeId) (h : Nat) (c : Container α) (p : Pass α) :
    Prop where
  kept : Kept b B D p
  mem : c.id ∈ B
  deep : Deep b (h + 1) c.id
  upright : c.Upright
  visited : ∃ v ∈ p.trail, v.node = c.id ∧
    c.innerWidth = (b.node c.id).innerSize .row v.request.width.size v.request.ownerWidth

/-- As `Hosting`, once all children have their preferred sizes. -/
structure Staged (b : Pass α) (B D : Set NodeId) (h : Nat) (c : Container α) (p : Pass α) : Prop
    extends Hosting b B D h c p where
  sized : ∀ x ∈ b.children c.id, (p.node x).IsSized

theorem Goes.hosting (hg : Goes b B D h p q) (hc : Hosting b B D h c p) : Hosting b B D h c q := by
  obtain ⟨v, hv, hvisit⟩ := hc.visited
  exact ⟨hg.kept, hc.mem, hc.deep, hc.upright, v, hg.more v hv, hvisit⟩

section

variable (hc : Hosting b B D h c p)

include hc

theorem Hosting.member (hx : x ∈ b.children c.id) : Member b B h x :=
  hc.kept.ground.member hc.mem hc.deep hx

theorem Hosting.children : p.children c.id = b.children c.id :=
  hc.kept.children hc.mem

theorem Hosting.inside : ∀ x ∈ p.children c.id, x ∈ B :=
  fun _ hx => (hc.member (hc.children ▸ hx)).mem

theorem Hosting.asked (hx : x ∈ b.children c.id) (hs : (p.node x).Balanced c.innerWidth →
    (p.node x).Suits .width r.width ∧ (p.node x).Suits .height r.height) :
    Asked b p x r := by
  have hcore := hc.kept.core (hc.member hx).mem
  by_cases hbal : (p.node x).Balanced c.innerWidth
  · obtain ⟨hw, hh⟩ := hs hbal
    refine ⟨fun source => ?_, fun source d M hM => Or.inr ?_⟩
    · by_cases hdeg : (p.node x).Degenerate
      · exact Or.inr (Or.inl (hcore.degenerate.mp hdeg))
      · exact Or.inl ⟨hw.sound hdeg, hh.sound hdeg⟩
    · cases d with
      | width => exact hw.pinned M (hcore.symm.pinned hM)
      | height => exact hh.pinned M (hcore.symm.pinned hM)
  · obtain ⟨v, hv, hvx, hinner⟩ := hc.visited
    have hun : ∀ source, Unbalanced b.node (⟨x, r, source⟩ :: p.trail) x := fun source =>
      ⟨c.innerWidth, hinner ▸ hvx ▸ .lister (List.mem_cons_of_mem _ hv) (hvx ▸ hx),
        fun hb => hbal (hcore.balanced.mpr hb)⟩
    exact ⟨fun source => Or.inr (Or.inr (hun source)), fun source _ _ _ =>
      Or.inl (Or.inl (hun source))⟩

end

theorem Goes.staged (hg : Goes b B D h p q) (hc : Staged b B D h c p) : Staged b B D h c q :=
  ⟨hg.hosting hc.toHosting, fun x hx => hg.sized x (hc.member hx).mem (hc.sized x hx)⟩

omit [Scalar α] in
theorem Member.child (hs : Ground b B) (hx : Member b B h x) (hy : y ∈ b.children x) :
    Member b B h y := by
  have hdeep := Tree.unfold_isSome_mono hx.deep (Nat.le_succ h)
  exact hs.member hx.mem hdeep hy

theorem Kept.clear (hk : Kept b B D p) (hx : Member b B h x) (hno : x ∉ D) :
    Goes b B D h p (p.update x Node.emptied) := by
  refine hk.update hx.mem (fun _ => rfl) ⟨(hk.core hx.mem).trans rfl, fun d a ha => ?_, nofun,
    fun hl => absurd rfl hl, fun hD => absurd hD hno, nofun⟩ (fun hl => absurd rfl hl)
    (fun hD => absurd hD hno) (fun hs => hs.congr rfl rfl) (Or.inl hx.deep)
  cases d <;> cases ha

theorem zeroOut_goes (fuel : Nat) (hk : Kept b B D p) (hx : Member b B h x)
    (hno : ∀ y ∈ D, ¬ Relation.ReflTransGen (fun a c => c ∈ b.children a) x y) :
    Goes b B D h p (zeroOut fuel x p) := by
  induction fuel generalizing x p with
  | zero => exact .refl hk
  | succ fuel ih =>
    have hclear := hk.clear hx fun hD => hno x hD .refl
    rw [zeroOut_succ]
    generalize p.update x _ = q at hclear ⊢
    rw [hclear.kept.ownChildren hx.mem, hclear.kept.children hx.mem]
    exact hclear.trans (walk_goes (fun q => q) hclear.kept fun u y hy hg =>
      ih hg.kept (hx.child hk.ground hy) fun z hz hb => hno z hz (.head hy hb))

variable [Lawful α]

theorem basisOfChild_goes (hv : Sizes b B D h v) (hc : Hosting b B D h c p)
    (hx : x ∈ b.children c.id) (hs : (p.node x).IsSized) :
    Goes b B D h p (p.basisOfChild v c x) := by
  have hmem := hc.member hx
  unfold basisOfChild
  cases hplan : c.planBasis p.generation (p.node c.id) (p.node x) with
  | keep => exact .refl hc.kept
  | take basis => exact hc.kept.setBasis hmem.mem (Container.planBasis_number hplan)
  | measure width height =>
    dsimp only
    have hasked : Asked b p x ⟨width, height, c.direction, c.innerWidth, c.innerHeight, false⟩ := by
      refine hc.asked hx fun hbal => ?_
      have hsuits := Container.basisOffers_suits (p.node c.id) hs hbal
      rwa [Container.basisOffers_of_measure hplan] at hsuits
    have hgo := hv.visit hmem hc.kept hs hasked
    exact hgo.trans (hgo.kept.setBasis hmem.mem fun a ha => by
      obtain ⟨rfl, hnum⟩ := Extent.of_eq_known ha
      exact hnum)

omit [Lawful α] in
theorem placeAtStart_goes (hk : Kept b B D p) (c : Container α) (hx : x ∈ B) :
    Goes b B D h p (p.placeAtStart c x) := by
  unfold placeAtStart
  split
  · exact hk.write hx
  · exact .refl hk

theorem prepareChild_goes (hv : Sizes b B D h v) (lone : Option NodeId) {s : α × Pass α}
    (hc : Hosting b B D h c s.2) (hx : x ∈ b.children c.id) :
    Goes b B D h s.2 (prepareChild v c lone s x).2 ∧
      ((prepareChild v c lone s x).2.node x).IsSized := by
  have hmem := hc.member hx
  obtain ⟨hres, hsized⟩ := hc.kept.resolveSize (h := h) hmem.mem
  unfold prepareChild
  dsimp only
  generalize s.2.update x Node.resolveSize = q at hres hsized ⊢
  have hq := hres.hosting hc
  split
  · rename_i hhid
    rw [hres.kept.isHidden hmem.mem] at hhid
    have hzero := zeroOut_goes q.depth hres.kept hmem (hc.kept.scene.apart c.id hc.mem x hx hhid)
    exact ⟨hres.trans hzero, hzero.sized x hmem.mem hsized⟩
  · have hplace := placeAtStart_goes (h := h) hres.kept c hmem.mem
    have hsized' := hplace.sized x hmem.mem hsized
    split
    · exact ⟨hres.trans hplace, hsized'⟩
    · have hbasis : Goes b B D h (q.placeAtStart c x)
          ((q.placeAtStart c x).prepareBasis v c lone x) := by
        unfold prepareBasis
        refine ite_goes (fun _ => hplace.kept.setBasis hmem.mem fun a ha => ?_)
          fun _ => basisOfChild_goes hv (hplace.hosting hq) hx hsized'
        obtain ⟨rfl, hnum⟩ := Extent.of_eq_known ha
        exact hnum
      exact ⟨(hres.trans hplace).trans hbasis, hbasis.sized x hmem.mem hsized'⟩

theorem basisOfChildren_goes (hv : Sizes b B D h v) (hc : Hosting b B D h c p) :
    Goes b B D h p (p.basisOfChildren v c).2 ∧ Staged b B D h c (p.basisOfChildren v c).2 := by
  unfold basisOfChildren
  dsimp only
  rw [hc.children]
  generalize (if c.mainMode == .exactly then _ else none) = lone
  have hwalk := foldl_goes (s := (0, p)) Prod.snd (fun x q => (q.node x).IsSized) hc.kept
    (fun x hx _ _ hg hs => hg.sized x (hc.member hx).mem hs) fun s x hx hg =>
      prepareChild_goes hv lone (hg.hosting hc) hx
  exact ⟨hwalk.1, hwalk.1.hosting hc, hwalk.2⟩

end Pass

end Flexbox
