import Flexbox.Proofs.Sizing.Bases

namespace Flexbox

variable {α : Type} [Scalar α]

open Scalar (IsNumber IsFinite Lawful)

namespace FlexItem

variable {item : FlexItem α}

/-- All sizes that the item may end up with when it does not flex freely are numbers. -/
structure Sane (item : FlexItem α) : Prop where
  basis : IsNumber item.basis
  bound : ∀ size, IsNumber (item.bound size)
  frozen : ∀ size, item.frozen = some size → IsNumber size

theorem Sane.finalSize (h : item.Sane) (space : Space α) : IsNumber (item.finalSize space) := by
  unfold FlexItem.finalSize
  split
  · exact h.frozen _ ‹_›
  · split
    · exact h.bound _
    · exact h.basis

theorem Sane.violation (h : item.Sane) {space : Space α} {size : α}
    (hv : item.violation? space = some size) : IsNumber size := by
  unfold violation? at hv
  split at hv
  · dsimp only at hv
    split at hv
    · cases hv
    · cases hv
      exact h.bound _
  · cases hv

end FlexItem

section Freezing

variable {items : List (FlexItem α)} {round : FreezeRound α}

theorem FreezeRound.step_sane {item : FlexItem α} (hi : item.Sane) (h : ∀ i ∈ round.seen, i.Sane) :
    ∀ i ∈ (round.step item).seen, i.Sane := by
  unfold step
  split
  · simpa using ⟨hi, h⟩
  · rename_i size hv
    have hsize : ∀ s, some size = some s → IsNumber s := by
      rintro s ⟨⟩
      exact hi.violation hv
    simpa using ⟨⟨hi.basis, hi.bound, hsize⟩, h⟩

theorem FreezeRound.foldl_sane (hi : ∀ i ∈ items, i.Sane) (h : ∀ i ∈ round.seen, i.Sane) :
    ∀ i ∈ (items.foldl step round).seen, i.Sane := by
  induction items generalizing round with
  | nil => exact h
  | cons item items ih =>
    exact ih (fun i hmem => hi i (by simp [hmem])) (step_sane (hi item (by simp)) h)

theorem freeze_sane (hi : ∀ i ∈ items, i.Sane) (fuel : Nat) (space : Space α) (rounds : Nat) :
    ∀ i ∈ (freeze fuel items space rounds).items, i.Sane := by
  have hround : ∀ (items : List (FlexItem α)) (space : Space α), (∀ i ∈ items, i.Sane) →
      ∀ i ∈ (items.foldl FreezeRound.step ⟨space, 0, false, []⟩).seen.reverse, i.Sane := by
    intro items space hi i hmem
    exact FreezeRound.foldl_sane hi (by simp) i (List.mem_reverse.mp hmem)
  induction fuel generalizing items space rounds with
  | zero =>
    unfold freeze
    exact hround items space hi
  | succ fuel ih =>
    unfold freeze
    dsimp only
    split
    · exact ih (hround items space hi) _ _
    · exact hround items space hi

end Freezing

theorem Container.flexItem_sane {α : Type} [Scalar α] [Lawful α] (c : Container α)
    (innerMain : Extent α) (x : NodeId) {n : Node α}
    (hn : ∀ a, n.geometry.flexBasis = .known a → IsNumber a) : (c.flexItem innerMain x n).Sane := by
  refine ⟨?_, fun size => Node.bound_number _ _ _ _ n, nofun⟩
  change IsNumber ((n.clamp c.mainAxis n.geometry.flexBasis c.ownerMain).getD 0)
  rcases Node.clamp_cases c.mainAxis n.geometry.flexBasis c.ownerMain n with he | ⟨a, ha, hnum⟩
  · rw [he]
    cases hb : n.geometry.flexBasis with
    | undefined => exact Scalar.zero_number
    | known a => exact hn a hb
  · rw [ha]
    exact hnum

namespace Pass

variable {b p q : Pass α} {B D : Set NodeId} {h : Nat} {x : NodeId}
  {c : Container α} {v : Visitor α} {xs : List NodeId} {s : LinesState α} {plan : LinesPlan α}

theorem collectLine_goes (hc : Staged b B D h c p) (innerMain : Extent α)
    (hx : ∀ x ∈ xs, x ∈ b.children c.id) (number : Nat) :
    Goes b B D h p (collectLine c innerMain xs number p).2 ∧
      ∀ x ∈ (collectLine c innerMain xs number p).1.items, x ∈ b.children c.id := by
  have hitems := fun x hx' => hx x ((p.collectLine_cut c innerMain xs number).inFlow x hx').1
  exact ⟨walk_goes (fun q => q) hc.kept fun u x hx' hg => hg.kept.write
    (hc.member (hitems x hx')).mem fun _ => ⟨rfl, rfl, rfl, rfl, rfl, rfl, rfl⟩, hitems⟩

variable [Lawful α] {line : Line α}

theorem layItem_goes (hv : Sizes b B D h v) (innerMain : Extent α) (overflows : Bool)
    (space : Space α) {s : α × Pass α} {item : FlexItem α} (hc : Staged b B D h c s.2)
    (hx : item.id ∈ b.children c.id) (hitem : item.Sane) :
    Goes b B D h s.2 (layItem v c innerMain overflows space s item).2 := by
  obtain ⟨taken, p⟩ := s
  dsimp only at hc
  have hs := hc.sized _ hx
  unfold layItem
  dsimp only
  have hgo := hv.visit (hc.member hx) hc.kept hs (hc.asked hx fun hbal =>
    Container.itemRequest_suits (p.node c.id) hc.upright hs hbal (hitem.finalSize space) innerMain
      overflows (p.node c.id).geometry.direction
      (c.performLayout && !c.stretchesChild (p.node c.id) (p.node item.id)))
  generalize v item.id _ p = q at hgo ⊢
  exact hgo.trans (hgo.kept.note hc.mem _)

theorem flexLine_goes (hv : Sizes b B D h v) (innerMain : Extent α) (overflows : Bool)
    (line : Line α) (hc : Staged b B D h c p) (hx : ∀ x ∈ line.items, x ∈ b.children c.id) :
    Goes b B D h p (p.flexLine v c innerMain overflows line).2 := by
  have hsane : ∀ i ∈ line.items.map fun x => c.flexItem innerMain x (p.node x), i.Sane := by
    intro i hi
    obtain ⟨x, hx', rfl⟩ := List.mem_map.mp hi
    exact c.flexItem_sane innerMain x (hc.kept.tidy x (hc.member (hx x hx')).mem).basis
  have hfrozen := freeze_sane hsane (line.items.map fun x => c.flexItem innerMain x
    (p.node x)).length line.space 0
  have hids := frozenItems_ids c innerMain line p
  dsimp only [frozenItems] at hids
  unfold flexLine
  dsimp only
  generalize freeze _ _ line.space 0 = frozen at hfrozen hids ⊢
  have hcount : Goes b B D h p (p.count fun s =>
    { s with maxFlexIterations := max s.maxFlexIterations frozen.rounds }) := hc.kept.count _
  generalize p.count _ = u at hcount ⊢
  refine hcount.trans (walk_goes (s := (0, u)) Prod.snd
    (f := layItem v c innerMain overflows frozen.space) hcount.kept fun s item hi hg => ?_)
  exact layItem_goes hv innerMain overflows frozen.space ((hcount.trans hg).staged hc)
    (hx _ (hids ▸ List.mem_map_of_mem hi)) (hfrozen item hi)

theorem flexCollected_goes (hv : Sizes b B D h v) (plan : LinesPlan α) (innerMain : Extent α)
    (hc : Staged b B D h c p) (hx : ∀ x ∈ line.items, x ∈ b.children c.id) :
    Goes b B D h p (flexCollected v c plan innerMain line p).2 := by
  unfold flexCollected
  generalize Container.lineSpan plan innerMain line.consumed = span
  dsimp only
  have hnote : Goes b B D h p (p.updateGeometryIf
      (span.byContent && (p.node c.id).config.legacyStretch) c.id
      fun g => { g with usedLegacyStretch := true }) :=
    hc.kept.note hc.mem _
  generalize p.updateGeometryIf _ _ _ = u at hnote ⊢
  generalize Container.freeSpace span.innerMain _ _ = free
  have hover : ∀ {q : Pass α} (condition : Bool), Goes b B D h p q → Goes b B D h p
      (q.updateGeometryIf condition c.id fun g => { g with hadOverflow := true }) :=
    fun condition hg => hg.trans
      (hg.kept.note hc.mem condition)
  split
  · exact hover _ hnote
  · exact hover _ (hnote.trans (flexLine_goes hv span.innerMain plan.overflows
      { line with space := { line.space with free := free } } (hnote.staged hc) hx))

theorem flexFront_goes (hv : Sizes b B D h v) (plan : LinesPlan α) (hc : Staged b B D h c s.pass)
    (hx : ∀ x ∈ xs, x ∈ b.children c.id) :
    Goes b B D h s.pass (flexFront v c plan xs s).2 := by
  obtain ⟨hcol, hitems⟩ := collectLine_goes hc s.innerMain hx s.count
  rw [flexFront_eq]
  exact hcol.trans (flexCollected_goes hv plan s.innerMain (hcol.staged hc) hitems)

omit [Lawful α]

theorem baselineWithin_goes (fuel : Nat) (hk : Kept b B D p) :
    Goes b B D h p (baselineWithin fuel x p).2 :=
  hk.works x (baselineWithin_works fuel trivial)

variable [Lawful α] {room : Nat}

theorem placeItemCross_goes (hv : Sizes b B D h v) (plan : CrossPlan α)
    (hc : Staged b B D h c p) (hx : x ∈ b.children c.id) :
    Goes b B D h p (p.placeItemCross v c plan x) := by
  have hmem := hc.member hx
  unfold placeItemCross
  dsimp only
  have hlaid : ∀ stretches : Bool, Goes b B D h p (if stretches then
      v x (c.stretchRequest plan.innerMain plan.lineCross (p.node x)) p else p) := fun _ =>
    ite_goes (fun _ => hv.visit hmem hc.kept (hc.sized x hx) (hc.asked hx fun hbal =>
      Container.stretchRequest_suits hc.upright hbal plan.innerMain plan.lineCross))
      fun _ => .refl hc.kept
  exact (hlaid _).trans ((hlaid _).kept.write hmem.mem)

theorem placeChildCross_goes (hv : Sizes b B D h v) (plan : CrossPlan α)
    (hc : Staged b B D h c p) (hx : x ∈ b.children c.id) :
    Goes b B D h p (p.placeChildCross v c plan x) := by
  unfold placeChildCross
  exact ite_goes (fun _ => .refl hc.kept) fun _ =>
    ite_goes (fun _ => hc.kept.setPosition (hc.member hx).mem _ _) fun _ =>
      placeItemCross_goes hv plan hc hx

theorem alignLine_goes (hv : Sizes b B D h v) (plan : CrossPlan α) (hc : Staged b B D h c p)
    (hx : ∀ x ∈ xs, x ∈ b.children c.id) : Goes b B D h p (p.alignLine v c plan xs) :=
  walk_goes (fun q => q) hc.kept fun _ x hx' hg =>
    placeChildCross_goes hv plan (hg.staged hc) (hx x hx')

theorem boundCross_nonneg {n : Node α} {M : α} (hn : n.Capped c.crossAxis.dimension M)
    (cross : α) : 0 ≤ c.boundCross n (n.frameFor c.crossAxis c.ownerWidth) cross :=
  Lawful.sub_nonneg (Node.frame_le_bound _ _ _ _ n)
    (Or.inr (hn.frame_finite c.crossAxis c.ownerWidth rfl))

/-- The lines so far: not more than there is room for, and with sizes that are numbers, across
where the container has an upper bound. -/
structure Counted (b : Pass α) (c : Container α) (room : Nat) (s : LinesState α) : Prop where
  few : s.count ≤ room
  main : IsNumber s.maxMain
  cross : ∀ M, (b.node c.id).Capped c.crossAxis.dimension M → 0 ≤ s.totalCross

variable (hv : Sizes b B D h v)
  (hplan : plan.frameCross = (b.node c.id).frameFor c.crossAxis c.ownerWidth)
  (hx : ∀ x ∈ xs, x ∈ b.children c.id)

include hv hplan hx

theorem placeFlexed_goes (line : Line α) (innerMain : Extent α) (hc : Staged b B D h c p)
    (hcount : Counted b c room s) :
    Goes b B D h p (placeFlexed v c plan xs s line innerMain p).2.pass ∧
      Counted b c (room + 1) (placeFlexed v c plan xs s line innerMain p).2 := by
  have htake := fun x hx' => hx x (List.mem_of_mem_take (i := line.length) hx')
  have hjust : Goes b B D h p (p.justifyLine c plan.mainMode innerMain (xs.take line.length)
    line).2 := hc.kept.works c.id (justifyLine_works plan.mainMode innerMain line
      (fun x hx' => (hc.member (htake x hx')).mem) trivial)
  unfold placeFlexed
  dsimp only
  generalize p.justifyLine c plan.mainMode innerMain _ line = justified at hjust ⊢
  have hcore := hjust.kept.core hc.mem
  refine ⟨hjust.trans (ite_goes (fun _ => alignLine_goes hv _ (hjust.staged hc) htake) fun _ =>
    .refl hjust.kept), Nat.succ_le_succ hcount.few, Scalar.max_number (Or.inl hcount.main),
    fun M hM => Lawful.add_nonneg (hcount.cross M hM) ?_⟩
  have hbound := fun cross => boundCross_nonneg (c := c) hM cross
  rw [hplan, hcore]
  exact hbound _

theorem layLine_goes (hc : Staged b B D h c s.pass) (hcount : Counted b c room s) :
    Goes b B D h s.pass (layLine v c plan xs s).2.pass ∧
      Counted b c (room + 1) (layLine v c plan xs s).2 := by
  have hgo := flexFront_goes hv plan hc hx
  rw [layLine_eq]
  obtain ⟨hgo', hcount'⟩ := placeFlexed_goes hv hplan hx (flexFront v c plan xs s).1.1
    (flexFront v c plan xs s).1.2 (hgo.staged hc) hcount
  exact ⟨hgo.trans hgo', hcount'⟩

theorem layLines_goes (room fuel : Nat) (hc : Staged b B D h c s.pass)
    (hcount : Counted b c room s) :
    Goes b B D h s.pass (layLines v c plan fuel xs s).pass ∧
      Counted b c (room + fuel) (layLines v c plan fuel xs s) := by
  induction fuel generalizing xs s room with
  | zero => exact ⟨.refl hc.kept, hcount⟩
  | succ fuel ih =>
    cases xs with
    | nil =>
      exact ⟨.refl hc.kept, Nat.le_trans hcount.few (Nat.le_add_right room _), hcount.main,
        hcount.cross⟩
    | cons y ys =>
      obtain ⟨hgo, hcount'⟩ := layLine_goes hv hplan hx hc hcount
      rw [layLines_cons]
      obtain ⟨hgo', hcount''⟩ := ih (fun x hx' => hx x (List.mem_of_mem_drop hx')) (room + 1)
        (hgo.staged hc) hcount'
      exact ⟨hgo.trans hgo', by rwa [Nat.add_assoc, Nat.add_comm 1] at hcount''⟩

end Pass

end Flexbox
