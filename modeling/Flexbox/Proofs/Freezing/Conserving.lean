import Flexbox.Proofs.Exact
import Flexbox.Proofs.Freezing.Rounds
import Flexbox.Proofs.Sizing.Bases

namespace Flexbox

namespace FlexItem

variable {i : FlexItem ℚ} {space : Space ℚ} {items items' : List (FlexItem ℚ)}

def excess (i : FlexItem ℚ) : ℚ :=
  match i.frozen with
  | some size => size - i.basis
  | none => 0

def growLeft (i : FlexItem ℚ) : ℚ :=
  match i.frozen with
  | some _ => 0
  | none => i.grow

theorem excess_frozen (i : FlexItem ℚ) (size : ℚ) :
    excess { i with frozen := some size } = size - i.basis := rfl

theorem growLeft_frozen (i : FlexItem ℚ) (size : ℚ) :
    growLeft { i with frozen := some size } = 0 := rfl

theorem excess_open (h : i.frozen = none) : i.excess = 0 := by
  rw [excess, h]

theorem growLeft_open (h : i.frozen = none) : i.growLeft = i.grow := by
  rw [growLeft, h]

theorem growLeft_nonneg (h : 0 ≤ i.grow) : 0 ≤ i.growLeft := by
  unfold growLeft
  split
  · exact le_rfl
  · exact h

theorem Stiffens.map_eq {β : Type} {f : FlexItem ℚ → β}
    (hf : ∀ i size, f { i with frozen := some size } = f i)
    (h : List.Forall₂ Stiffens items items') : items'.map f = items.map f := by
  induction h with
  | nil => rfl
  | cons hij _ ih =>
    rw [List.map_cons, List.map_cons, ih]
    rcases hij with rfl | ⟨share, -, rfl⟩
    · rfl
    · rw [hf]

theorem Stiffens.finalSize {j : FlexItem ℚ} (h : Stiffens j i) (hj : j.frozen = none)
    (space : Space ℚ) :
    (∃ share, i.finalSize space = j.bound share) ∨ i.finalSize space = j.basis := by
  rcases h with rfl | ⟨share, -, rfl⟩
  · cases hs : i.flexed? space with
    | some share => exact Or.inl ⟨share, by simp [FlexItem.finalSize, hj, hs]⟩
    | none => exact Or.inr (by simp [FlexItem.finalSize, hj, hs])
  · exact Or.inl ⟨share, rfl⟩

theorem finalSize_kept {share : ℚ} (hf : i.frozen = none) (hv : i.violation? space = none)
    (h : i.flexed? space = some share ∨ i.flexed? space = none ∧ share = i.basis) :
    i.finalSize space = share := by
  rcases h with hshare | ⟨hstill, rfl⟩
  · obtain ⟨hsame, hfinal⟩ := finalSize_of_kept hf hv hshare (Exact.isNaN_eq _)
    rw [hfinal]
    exact (beq_iff_eq.mp hsame).symm
  · simp [finalSize, hf, hstill]

theorem finalSize_grown (hfree : 0 < space.free) (hf : i.frozen = none)
    (hv : i.violation? space = none) :
    i.finalSize space = i.basis + space.free / space.grow * i.grow := by
  refine finalSize_kept hf hv ?_
  have hnot : ¬ space.free < 0 := not_lt_of_gt hfree
  by_cases hgrow : i.grow = 0 <;> simp [flexed?, hnot, hfree, hgrow]

theorem sum_finalSize {ratio : ℚ}
    (h : ∀ i ∈ items, i.frozen = none → i.finalSize space = i.basis + ratio * i.grow) :
    (items.map fun i => i.finalSize space).sum =
      (items.map basis).sum + (items.map excess).sum + ratio * (items.map growLeft).sum := by
  induction items with
  | nil => simp
  | cons i items ih =>
    have ih := ih fun j hj => h j (List.mem_cons_of_mem i hj)
    have hi : i.finalSize space = i.basis + i.excess + ratio * i.growLeft := by
      cases hf : i.frozen with
      | some size => simp [finalSize, excess, growLeft, hf]
      | none => rw [excess_open hf, growLeft_open hf, h i List.mem_cons_self hf, add_zero]
    simp only [List.map_cons, List.sum_cons]
    rw [ih, hi]
    ring

end FlexItem

open FlexItem (Stiffens excess growLeft)

namespace FreezeRound

theorem foldl_balance (items : List (FlexItem ℚ)) (round : FreezeRound ℚ) :
    ((items.foldl step round).seen.map excess).sum + round.taken =
        (round.seen.map excess).sum + (items.map excess).sum + (items.foldl step round).taken ∧
      (¬ round.space.free < 0 →
        (items.foldl step round).space.grow + (round.seen.map growLeft).sum +
            (items.map growLeft).sum =
          round.space.grow + ((items.foldl step round).seen.map growLeft).sum) := by
  induction items generalizing round with
  | nil => simp
  | cons i items ih =>
    obtain ⟨htaken, hgrow⟩ := ih (round.step i)
    simp only [List.foldl_cons, List.map_cons, List.sum_cons]
    cases h : i.violation? round.space with
    | none =>
      rw [step_kept h] at htaken hgrow ⊢
      simp only [List.map_cons, List.sum_cons] at htaken hgrow
      exact ⟨by linarith, fun hfree => by linarith [hgrow hfree]⟩
    | some size =>
      have hopen := (FlexItem.violation?_eq_some.mp h).1
      rw [step_broken h] at htaken hgrow ⊢
      simp only [List.map_cons, List.sum_cons, FlexItem.excess_frozen,
        FlexItem.growLeft_frozen] at htaken hgrow
      rw [FlexItem.excess_open hopen, FlexItem.growLeft_open hopen]
      refine ⟨by linarith, fun hfree => ?_⟩
      rw [Space.without, if_neg hfree] at hgrow ⊢
      have hgrow := hgrow hfree
      dsimp only at hgrow ⊢
      linarith

end FreezeRound

namespace FlexState

variable {s : FlexState ℚ}

theorem sum_reverse (weight : FlexItem ℚ → ℚ) (items : List (FlexItem ℚ)) :
    (items.reverse.map weight).sum = (items.map weight).sum := by
  rw [List.map_reverse, List.sum_reverse]

theorem next_conserves (s : FlexState ℚ) :
    s.next.space.free + (s.next.items.map excess).sum =
      s.space.free + (s.items.map excess).sum := by
  obtain ⟨htaken, -⟩ := FreezeRound.foldl_balance s.items ⟨s.space, 0, false, []⟩
  have hfree := FreezeRound.foldl_free s.items ⟨s.space, 0, false, []⟩
  change (s.walk.seen.map excess).sum + 0 = 0 + _ + s.walk.taken at htaken
  change s.walk.space.free = s.space.free at hfree
  change s.walk.space.free - s.walk.taken + (s.walk.seen.reverse.map excess).sum = _
  rw [sum_reverse, hfree]
  linarith

theorem next_grow (hfree : 0 < s.space.free) :
    s.next.space.grow + (s.items.map growLeft).sum =
      s.space.grow + (s.next.items.map growLeft).sum := by
  have hgrow := (FreezeRound.foldl_balance s.items ⟨s.space, 0, false, []⟩).2 (not_lt_of_gt hfree)
  change s.walk.space.grow + 0 + _ = _ + (s.walk.seen.map growLeft).sum at hgrow
  change s.walk.space.grow + _ = _ + (s.walk.seen.reverse.map growLeft).sum
  rw [sum_reverse]
  linarith

theorem after_conserves (s : FlexState ℚ) (k : Nat) :
    (s.after k).space.free + ((s.after k).items.map excess).sum =
      s.space.free + (s.items.map excess).sum := by
  induction k with
  | zero => rfl
  | succ k ih => rw [after_succ, next_conserves, ih]

theorem after_grow {k : Nat} (hfree : ∀ j < k, 0 < (s.after j).space.free) :
    (s.after k).space.grow + (s.items.map growLeft).sum =
      s.space.grow + ((s.after k).items.map growLeft).sum := by
  induction k with
  | zero => rfl
  | succ k ih =>
    have ih := ih fun j hj => hfree j (Nat.lt_succ_of_lt hj)
    have hstep := next_grow (hfree k (Nat.lt_succ_self k))
    rw [after_succ]
    linarith

section Total

variable {k : Nat} (hopen : ∀ i ∈ s.items, i.frozen = none)
  (htotal : s.space.grow = (s.items.map FlexItem.grow).sum)
include hopen htotal

theorem after_total (hfree : ∀ j < k, 0 < (s.after j).space.free) :
    (s.after k).space.grow = ((s.after k).items.map growLeft).sum := by
  have hgrow := after_grow hfree
  rw [List.map_congr_left fun i hi => FlexItem.growLeft_open (hopen i hi), ← htotal] at hgrow
  linarith

theorem sum_settled (hfree : ∀ j ≤ k, 0 < (s.after j).space.free)
    (hkept : ∀ i ∈ (s.after k).items, i.violation? (s.after k).space = none)
    (hleft : 0 < (s.after k).space.grow) :
    ((s.after k).items.map fun i => i.finalSize (s.after k).space).sum =
      (s.items.map FlexItem.basis).sum + s.space.free := by
  have hspace := s.after_conserves k
  have hnone : (s.items.map excess).sum = 0 := by
    rw [List.map_congr_left fun i hi => FlexItem.excess_open (hopen i hi)]
    simp
  rw [FlexItem.sum_finalSize fun i hi hf =>
      FlexItem.finalSize_grown (hfree k (Nat.le_refl k)) hf (hkept i hi),
    Stiffens.map_eq (fun _ _ => rfl) (s.after_items k),
    ← after_total hopen htotal fun j hj => hfree j hj.le, div_mul_cancel₀ _ hleft.ne']
  linarith

end Total

end FlexState

namespace Node

/-- Along an axis the size bounds are lengths or not set; the lower one is not negative, and the
upper one is no less than that and leaves room for padding and border. -/
structure Roomy (n : Node ℚ) (axis : FlexDirection) (width : Extent ℚ) : Prop where
  lower : ∀ x, n.style.minSize.get axis.dimension ≠ .percent x
  upper : ∀ x, n.style.maxSize.get axis.dimension ≠ .percent x
  nonneg : ∀ m, n.style.minSize.get axis.dimension = .points m → 0 ≤ m
  frame : ∀ M, n.style.maxSize.get axis.dimension = .points M → n.frameFor axis width ≤ M
  ordered : ∀ m M, n.style.minSize.get axis.dimension = .points m →
    n.style.maxSize.get axis.dimension = .points M → m ≤ M

def Allows (n : Node ℚ) (axis : FlexDirection) (size : ℚ) : Prop :=
  (∀ m, n.style.minSize.get axis.dimension = .points m → m ≤ size) ∧
    ∀ M, n.style.maxSize.get axis.dimension = .points M → size ≤ M

variable {n : Node ℚ} {axis : FlexDirection} {width : Extent ℚ}

theorem resolve_length {length : Length ℚ} (h : ∀ x, length ≠ .percent x) (reference : Extent ℚ) :
    (∃ x, length = .points x ∧ length.resolve reference = .known x) ∨
      (∀ x, length ≠ .points x) ∧ length.resolve reference = .undefined := by
  cases length with
  | undefined => exact Or.inr ⟨nofun, rfl⟩
  | auto => exact Or.inr ⟨nofun, rfl⟩
  | points x => exact Or.inl ⟨x, rfl, Exact.of_eq x⟩
  | percent x => exact absurd rfl (h x)

theorem Roomy.clamp_allows (h : n.Roomy axis width) (x : ℚ) (reference : Extent ℚ) :
    ∃ y, n.clamp axis (.known x) reference = .known y ∧ n.Allows axis y := by
  have hnonneg : ∀ M, n.style.maxSize.get axis.dimension = .points M → 0 ≤ M := fun M hM =>
    (frameFor_nonneg axis width n).trans (h.frame M hM)
  have hordered := h.ordered
  have hmin := h.nonneg
  unfold clamp Allows
  rcases resolve_length h.upper reference with ⟨M, hM, hMr⟩ | ⟨hM, hMr⟩ <;>
    rcases resolve_length h.lower reference with ⟨m, hm, hmr⟩ | ⟨hm, hmr⟩ <;>
    simp only [hMr, hmr, Extent.holds, Bool.false_and, Bool.false_eq_true, if_false,
      Bool.and_eq_true, decide_eq_true_eq, Extent.gt_known, Extent.lt_known] <;>
    first
      | (split_ifs <;> exact ⟨_, rfl, by grind, by grind⟩)
      | exact ⟨_, rfl, by grind, by grind⟩

theorem Roomy.bound_allows (h : n.Roomy axis width) (x : ℚ) (reference : Extent ℚ) :
    n.Allows axis (n.bound axis (.of x) reference width) := by
  obtain ⟨y, hy, hmin, hmax⟩ := h.clamp_allows x reference
  have hbound : n.bound axis (.of x) reference width = max y (n.frameFor axis width) := by
    rw [bound, Exact.of_eq, Exact.of_eq, hy]
    exact Exact.max_eq _ _
  rw [hbound]
  exact ⟨fun m hm => le_max_of_le_left (hmin m hm), fun M hM => max_le (hmax M hM) (h.frame M hM)⟩

theorem Roomy.finalSize_allows {c : Container ℚ} (h : n.Roomy c.mainAxis c.innerWidth)
    (hbasis : n.geometry.flexBasis.isDefined = true) {innerMain : Extent ℚ} {x : NodeId}
    {i : FlexItem ℚ} (hi : Stiffens (c.flexItem innerMain x n) i) (space : Space ℚ) :
    n.Allows c.mainAxis (i.finalSize space) := by
  rcases hi.finalSize rfl space with ⟨share, hfinal⟩ | hfinal
  · rw [hfinal]
    exact h.bound_allows share innerMain
  · cases hb : n.geometry.flexBasis with
    | undefined =>
      rw [hb] at hbasis
      cases hbasis
    | known basis =>
      obtain ⟨y, hy, hallows⟩ := h.clamp_allows basis c.ownerMain
      have hclamped : (c.flexItem innerMain x n).basis = y := by
        change n.clampedBasis c.mainAxis c.ownerMain = y
        rw [clampedBasis, hb, hy]
        rfl
      rwa [hfinal, hclamped]

theorem resolve_rigid (hflow : n.isInFlow = true) (h : n.isFlexible = false) :
    n.resolveGrow = 0 ∧ n.resolveShrink = 0 := by
  have hplaced : n.style.positionType = .relative := by
    cases hp : n.style.positionType with
    | relative => rfl
    | absolute => simp [isInFlow, isAbsolute, hp] at hflow
  simpa [isFlexible, hplaced] using h

end Node

namespace Line

section Totals

variable {α : Type} [Scalar α]

/-- The totals of a line with one more item. -/
def counted (f : NodeId → Node α) (total : Space α) (x : NodeId) : Space α :=
  if (f x).isFlexible then
    { total with
      grow := total.grow + (f x).resolveGrow
      shrink := total.shrink + -(f x).resolveShrink * (f x).geometry.flexBasis.getD 0 }
  else total

theorem fill_space (c : Container α) (wraps : Bool) (ownerMain innerMain : Extent α)
    (f : NodeId → Node α) (xs : List NodeId) (start : Line α) {line : Line α}
    (hline : fill c wraps ownerMain innerMain (xs.map fun x => (x, f x)) start = line)
    (h : start.space = start.items.foldl (counted f) ⟨0, 0, 0⟩) :
    line.space = line.items.foldl (counted f) ⟨0, 0, 0⟩ := by
  induction xs generalizing start with
  | nil =>
    obtain rfl : start = line := hline
    exact h
  | cons x xs ih =>
    rw [List.map_cons, fill] at hline
    split at hline
    · exact ih _ hline h
    · dsimp only at hline
      split at hline
      · obtain rfl : start = line := hline
        exact h
      · exact ih _ hline (by rw [add, List.foldl_append, ← h]; rfl)

end Totals

theorem foldl_counted {f : NodeId → Node ℚ} {xs : List NodeId}
    (hflow : ∀ x ∈ xs, (f x).isInFlow = true) (total : Space ℚ) :
    (xs.foldl (counted f) total).grow = total.grow + (xs.map fun x => (f x).resolveGrow).sum ∧
      (xs.foldl (counted f) total).shrink = total.shrink +
        (xs.map fun x => -(f x).resolveShrink * (f x).geometry.flexBasis.getD 0).sum := by
  induction xs generalizing total with
  | nil => simp
  | cons x xs ih =>
    obtain ⟨hgrow, hshrink⟩ := ih (fun y hy => hflow y (by simp [hy])) (counted f total x)
    rw [List.foldl_cons, hgrow, hshrink, counted]
    cases hflex : (f x).isFlexible with
    | true => simp [add_assoc]
    | false => simp [(f x).resolve_rigid (hflow x (by simp)) hflex]

end Line

namespace Pass

variable {b p q : Pass ℚ} {c : Container ℚ} {line : Line ℚ} {children : List NodeId}
  {room innerMain : Extent ℚ} {f : Frozen ℚ} {number : Nat} {v : Visitor ℚ} {x : NodeId}

/-- The items of a line as they are before they are flexed. -/
def flexState (p : Pass ℚ) (c : Container ℚ) (innerMain : Extent ℚ) (line : Line ℚ) :
    FlexState ℚ :=
  ⟨line.items.map fun id => c.flexItem innerMain id (p.node id), line.space⟩

theorem node_numbered (xs : List NodeId) (number : Nat) (p : Pass ℚ) (x : NodeId) : ∃ k,
    (xs.foldl (fun p y => p.update y fun n => { n with line := number }) p).node x =
      { p.node x with line := k } := by
  induction xs generalizing p with
  | nil => exact ⟨(p.node x).line, rfl⟩
  | cons y xs ih =>
    obtain ⟨k, hk⟩ := ih (p.update y fun n => { n with line := number })
    refine ⟨k, hk.trans ?_⟩
    unfold node update
    rw [Tree.find?_update]
    split
    · rename_i he
      rw [he]
      cases p.tree.find? y <;> rfl
    · rfl

theorem collectLine_items_eq (hline : p.collectLine c room children number = (line, q))
    (innerMain : Extent ℚ) (x : NodeId) :
    c.flexItem innerMain x (q.node x) = c.flexItem innerMain x (p.node x) := by
  obtain ⟨k, hk⟩ := node_numbered line.items number p x
  obtain ⟨rfl, rfl⟩ := Prod.mk.inj hline
  rw [hk]
  rfl

theorem collectLine_space {α : Type} [Scalar α] {p q : Pass α} {c : Container α} {line : Line α}
    {room : Extent α} {children : List NodeId} {number : Nat}
    (hline : p.collectLine c room children number = (line, q)) :
    let total := line.items.foldl (Line.counted p.node) ⟨0, 0, 0⟩
    line.space = ⟨total.free, Line.raised total.grow, Line.raised total.shrink⟩ := by
  obtain ⟨rfl, -⟩ := Prod.mk.inj hline
  have hspace := Line.fill_space c ((p.node c.id).style.flexWrap != .noWrap) c.ownerMain room
    p.node children .empty rfl rfl
  exact hspace ▸ rfl

theorem collectLine_totals (hline : p.collectLine c room children number = (line, q)) :
    line.space.grow = Line.raised (line.items.map fun x => (p.node x).resolveGrow).sum ∧
      line.space.shrink = Line.raised (line.items.map fun x =>
        -(p.node x).resolveShrink * (p.node x).geometry.flexBasis.getD 0).sum := by
  have hflow : ∀ x ∈ line.items, (p.node x).isInFlow = true := by
    obtain ⟨rfl, -⟩ := Prod.mk.inj hline
    exact fun x hx => ((Line.fill_cut c _ room p.node children).inFlow x hx).2
  obtain ⟨hgrow, hshrink⟩ := Line.foldl_counted hflow ⟨0, 0, 0⟩
  rw [collectLine_space hline]
  exact ⟨congrArg Line.raised (hgrow.trans (zero_add _)),
    congrArg Line.raised (hshrink.trans (zero_add _))⟩

theorem collectLine_grow (hline : p.collectLine c room children number = (line, q))
    (hsum : 1 ≤ ((q.flexState c innerMain line).items.map FlexItem.grow).sum) :
    line.space.grow = ((q.flexState c innerMain line).items.map FlexItem.grow).sum := by
  have hitems : (q.flexState c innerMain line).items.map FlexItem.grow =
      line.items.map fun x => (p.node x).resolveGrow := by
    rw [flexState, List.map_map]
    exact List.map_congr_left fun x _ =>
      congrArg FlexItem.grow (collectLine_items_eq hline innerMain x)
  rw [(collectLine_totals hline).1, hitems]
  rw [hitems] at hsum
  refine if_neg fun hsmall => ?_
  simp only [Bool.and_eq_true, decide_eq_true_eq] at hsmall
  exact absurd hsmall.2 (not_lt_of_ge hsum)

theorem foldl_layItem_taken (visit : Visitor ℚ) (c : Container ℚ) (innerMain : Extent ℚ)
    (overflows : Bool) (space : Space ℚ) (items : List (FlexItem ℚ)) (state : ℚ × Pass ℚ) :
    (items.foldl (layItem visit c innerMain overflows space) state).1 =
      state.1 + (items.map fun i => i.finalSize space).sum - (items.map FlexItem.basis).sum := by
  induction items generalizing state with
  | nil => simp
  | cons i items ih =>
    rw [List.foldl_cons, ih]
    simp only [layItem, List.map_cons, List.sum_cons]
    ring

theorem flexLine_free (visit : Visitor ℚ) (c : Container ℚ) (innerMain : Extent ℚ)
    (overflows : Bool) (line : Line ℚ) (p : Pass ℚ)
    (hf : freeze (p.flexState c innerMain line).items.length
      (p.flexState c innerMain line).items line.space 0 = f) :
    (p.flexLine visit c innerMain overflows line).1.space.free = line.space.free -
      ((f.items.map fun i => i.finalSize f.space).sum - (f.items.map FlexItem.basis).sum) := by
  have htaken := foldl_layItem_taken visit c innerMain overflows f.space f.items
    (0, p.count fun s => { s with maxFlexIterations := max s.maxFlexIterations f.rounds })
  unfold flexState at hf
  unfold flexLine
  dsimp only at hf ⊢
  rw [hf, htaken, zero_add]

/-- The one flexible child of a container that is to fill its main axis. -/
def loneChild (p : Pass ℚ) (c : Container ℚ) : Option NodeId :=
  if c.mainMode == .exactly then
    Container.loneFlexible ((p.children c.id).map fun y => (y, p.node y)) none
  else none

/-- The child has a basis, of nothing if it is the one that flexes. -/
def Based (lone : Option NodeId) (x : NodeId) (p : Pass ℚ) : Prop :=
  (p.node x).geometry.flexBasis.isDefined = true ∧
    (lone = some x → (p.node x).geometry.flexBasis = .known 0)

theorem prepareBasis_based (hl : p.tree.Live x) (hv : ∀ r, (v x r p).tree.Live x)
    (lone : Option NodeId) : Based lone x (p.prepareBasis v c lone x) := by
  have hset : ∀ {q : Pass ℚ}, q.tree.Live x → ∀ basis,
      ((q.setBasis x basis).node x).geometry.flexBasis = basis := fun hl basis => by
    rw [setBasis, updateGeometry, node_update_self hl]
  unfold prepareBasis Based
  split
  · rw [hset hl, Exact.of_eq]
    exact ⟨rfl, fun _ => rfl⟩
  · rename_i hlone
    refine ⟨?_, fun he => absurd (by simpa using he) hlone⟩
    unfold basisOfChild
    obtain ⟨axis, e, he⟩ | ⟨he, hdefined⟩ | he :=
      c.planBasis_cases p.generation (p.node c.id) (p.node x) <;> rw [he]
    · dsimp only
      rw [hset hl, Exact.of_eq]
      cases e <;> rfl
    · exact hdefined
    · dsimp only
      rw [hset (hv _), Exact.of_eq]
      rfl

/-- Every child in flow gets a basis, and the one flexible child one of nothing. -/
theorem basisOfChildren_based (hb : Nested b c.id) (hv : Discreet v) (hx : x ∈ b.children c.id)
    (hflow : (b.node x).isInFlow = true) :
    Based (b.loneChild c) x (b.basisOfChildren v c).2 := by
  change Based _ x ((b.children c.id).foldl (prepareChild v c (b.loneChild c)) (0, b)).2
  generalize b.loneChild c = lone
  have hwork : ∀ (s : ℚ × Pass ℚ) y, Works v c.id (About [y]) s.2 (prepareChild v c lone s y).2 :=
    fun _ _ => prepareChild_works lone (by simp)
  have hon := fun (s : ℚ × Pass ℚ) y (hy : y ∈ b.children c.id) (hm : Moves Set.univ b s.2) =>
    hb.on hv.moves hm (by simpa using hy) (hwork s y)
  have hkid : ∀ {q}, Moves Set.univ b q → q.tree.Live x ∧ ∀ r, (v x r q).tree.Live x := by
    intro q hm
    have hk := (hb.moves hm).child (hb.children hm ▸ hx)
    exact ⟨hk.live, fun r => (hv.moves x r q hk).live (hm.sound hb.sound) hk.live⟩
  refine (foldl_turns (I := fun s : ℚ × Pass ℚ => Moves Set.univ b s.2)
    (J := fun s => Moves Set.univ b s.2 ∧ Based lone x s.2) (· = x) (fun _ h => h.1)
    (fun s y hy he hm => ⟨hon s y hy hm, ?_⟩)
    (fun s y hy hne => ⟨hon s y hy, fun h => ⟨hon s y hy h.1, ?_⟩⟩) (.refl b)
    (Or.inl ⟨x, hx, rfl⟩)).2
  · subst he
    have hsize : Moves Set.univ b (s.2.update y Node.resolveSize) :=
      hm.trans (update_moves (Set.mem_univ y) fun _ => rfl)
    have hstart : Moves Set.univ b ((s.2.update y Node.resolveSize).placeAtStart c y) :=
      hb.on hv.moves hsize (by simpa using hy) (placeAtStart_works (List.mem_singleton_self y))
    rw [← (hsize.kind hb.sound (hb.child hx).live).2.2, Node.isInFlow] at hflow
    simp only [Bool.and_eq_true, Bool.not_eq_true'] at hflow
    unfold prepareChild
    dsimp only
    rw [hflow.1, hflow.2]
    exact prepareBasis_based (hkid hstart).1 (hkid hstart).2 lone
  · obtain ⟨j, hj⟩ := (hb.others hv h.1 (by simpa using hy) hx (by simpa using Ne.symm hne)
      (hwork s y)).untouched (h.1.sound hb.sound) (by simp) (node_eq (hkid h.1).1)
    rw [Based, node_of_find? hj]
    exact h.2

/-- Growing uses up the space of a line. Where free space is left after every round and something
is left that can grow, the items come to their bases and all of the free space; what is not frozen
grows in proportion to its factor, and every item that has a basis, as `basisOfChildren` gives it,
keeps its bounds. -/
theorem growing_conserves_space {collected : Line ℚ} {free : ℚ}
    (hline : p.collectLine c room children number = (collected, q))
    (hfree : line = { collected with space := { collected.space with free := free } })
    {s : FlexState ℚ} (hs : s = q.flexState c innerMain line)
    (hf : f = freeze s.items.length s.items s.space 0) (hgrow : ∀ i ∈ s.items, 0 ≤ i.grow)
    (hsum : 1 ≤ (s.items.map FlexItem.grow).sum)
    (hroomy : ∀ x ∈ line.items, (q.node x).Roomy c.mainAxis c.innerWidth)
    (hrounds : ∀ k ≤ f.rounds, 0 < (s.after k).space.free)
    (hleft : ∃ i ∈ f.items, i.frozen = none ∧ 0 < i.grow) :
    (f.items.map fun i => i.finalSize f.space).sum = (s.items.map FlexItem.basis).sum + free ∧
    (∃ ratio, 0 < ratio ∧ ∀ i ∈ f.items, i.frozen = none →
      i.finalSize f.space - i.basis = ratio * i.grow) ∧
    (∀ i ∈ f.items, (q.node i.id).geometry.flexBasis.isDefined = true →
      (q.node i.id).Allows c.mainAxis (i.finalSize f.space)) ∧
    ∀ visit overflows, (q.flexLine visit c innerMain overflows line).1.space.free = 0 := by
  obtain ⟨k, hrun, -, -, hlast, -⟩ := FlexState.freeze_settled sub_zero s
  rw [hrun _ (Nat.le_refl _)] at hf
  have hitem : ∀ i ∈ s.items, ∃ x ∈ line.items, c.flexItem innerMain x (q.node x) = i := by
    rw [hs]
    exact fun i hi => List.mem_map.mp hi
  have hopen : ∀ i ∈ s.items, i.frozen = none := fun i hi => by
    obtain ⟨x, -, rfl⟩ := hitem i hi
    rfl
  have hkept := (FlexState.next_quiet sub_zero hlast).2
  have hfrom := fun i => exists_of_forall₂ (s.after_items k) (y := i)
  have htotal : s.space.grow = (s.items.map FlexItem.grow).sum := by
    subst hs hfree
    exact collectLine_grow hline hsum
  have hspace : s.space.free = free := by rw [hs, hfree]; rfl
  subst hf
  have hpos : ∀ j ≤ k, 0 < (s.after j).space.free := fun j hj => hrounds j (Nat.le_succ_of_le hj)
  -- Whatever is left to grow is left to divide by.
  have hdivisor : 0 < (s.after k).space.grow := by
    obtain ⟨i, hi, hif, hig⟩ := hleft
    rw [FlexState.after_total hopen htotal fun j hj => hpos j hj.le]
    refine hig.trans_le (FlexItem.growLeft_open hif ▸ ?_)
    refine List.single_le_sum (fun y hy => ?_) _ (List.mem_map_of_mem hi)
    obtain ⟨i', hi', rfl⟩ := List.mem_map.mp hy
    obtain ⟨j, hj, hji⟩ := hfrom i' hi'
    refine FlexItem.growLeft_nonneg ?_
    rcases hji with rfl | ⟨share, -, rfl⟩
    · exact hgrow i' hj
    · exact hgrow j hj
  have hsizes := FlexState.sum_settled hopen htotal hpos hkept hdivisor
  refine ⟨hspace ▸ hsizes, ⟨_, div_pos (hpos k le_rfl) hdivisor, fun i hi hif => ?_⟩,
    fun i hi hbasis => ?_, fun visit overflows => ?_⟩
  · rw [FlexItem.finalSize_grown (hpos k le_rfl) hif (hkept i hi)]
    exact add_sub_cancel_left _ _
  · obtain ⟨j, hj, hji⟩ := hfrom i hi
    obtain ⟨x, hx, rfl⟩ := hitem j hj
    have hid : i.id = x := by rcases hji with rfl | ⟨share, -, rfl⟩ <;> rfl
    rw [hid] at hbasis ⊢
    exact (hroomy x hx).finalSize_allows hbasis hji _
  · rw [hs] at hrun
    rw [flexLine_free visit c innerMain overflows line q (hrun _ (Nat.le_refl _)), ← hs, hsizes,
      Stiffens.map_eq (fun _ _ => rfl) (s.after_items k), hs]
    exact sub_eq_zero.mpr (add_sub_cancel_left _ _).symm

/-- A row with three items, the first of which cannot grow as far as its share. -/
def cappedRow : Tree ℚ :=
  (Tree.empty .initial).after [.newNode none, .newNode none, .newNode none, .newNode none,
    .addChild ⟨1, 1⟩ ⟨2, 1⟩, .addChild ⟨1, 1⟩ ⟨3, 1⟩, .addChild ⟨1, 1⟩ ⟨4, 1⟩,
    .updateStyle ⟨2, 1⟩ fun s => { s with
      flexBasis := .points 10, flexGrow := .known 1, maxSize := ⟨.points 20, .undefined⟩ },
    .updateStyle ⟨3, 1⟩ fun s => { s with flexBasis := .points 10, flexGrow := .known 1 },
    .updateStyle ⟨4, 1⟩ fun s => { s with flexBasis := .points 20, flexGrow := .known 2 }]

def rowContainer (width : ℚ) : Container ℚ where
  id := ⟨1, 1⟩
  direction := .ltr
  mainAxis := .row
  crossAxis := .column
  ownerWidth := .known width
  ownerHeight := .undefined
  innerWidth := .known width
  innerHeight := .undefined
  widthMode := .exactly
  heightMode := .undefined
  performLayout := true

def cappedPass : Pass ℚ :=
  ((Pass.start cappedRow .initial).basisOfChildren (fun _ _ p => p) (rowContainer 100)).2

def cappedLine : Line ℚ × Pass ℚ :=
  cappedPass.collectLine (rowContainer 100) (.known 100) [⟨2, 1⟩, ⟨3, 1⟩, ⟨4, 1⟩] 0

def cappedSpace : Line ℚ :=
  { cappedLine.1 with space := { cappedLine.1.space with free := 60 } }

def cappedFlex : FlexState ℚ := cappedLine.2.flexState (rowContainer 100) (.known 100) cappedSpace

def cappedEnd : Frozen ℚ := freeze cappedFlex.items.length cappedFlex.items cappedFlex.space 0

theorem cappedLine_roomy : ∀ x ∈ cappedSpace.items,
    (cappedLine.2.node x).Roomy (rowContainer 100).mainAxis (rowContainer 100).innerWidth := by
  have hall : ∀ x ∈ cappedSpace.items,
      (cappedLine.2.node x).style.minSize.get FlexDirection.row.dimension = .undefined ∧
      ((cappedLine.2.node x).style.maxSize.get FlexDirection.row.dimension = .undefined ∨
        (cappedLine.2.node x).style.maxSize.get FlexDirection.row.dimension = .points 20 ∧
          (cappedLine.2.node x).frameFor .row (.known 100) ≤ 20) := by
    decide +kernel
  intro x hx
  obtain ⟨hmin, hmax⟩ := hall x hx
  change (cappedLine.2.node x).Roomy .row (.known 100)
  rcases hmax with hmax | ⟨hmax, hframe⟩
  · exact ⟨by simp [hmin], by simp [hmax], by simp [hmin], by simp [hmax], by simp [hmin]⟩
  · exact ⟨by simp [hmin], by simp [hmax], by simp [hmin], by simpa [hmax] using hframe,
      by simp [hmin]⟩

/-- The three come to the width of the row. The first is frozen, and the others share what is left
of the free space one to two. -/
theorem growing_conserves_space_capped :
    cappedEnd.rounds = 2 ∧
    cappedEnd.items.map (fun i => i.finalSize cappedEnd.space) = [20, 80 / 3, 160 / 3] ∧
    (cappedEnd.items.map fun i => i.finalSize cappedEnd.space).sum =
      (cappedFlex.items.map FlexItem.basis).sum + 60 := by
  have hline : cappedPass.collectLine (rowContainer 100) (.known 100) [⟨2, 1⟩, ⟨3, 1⟩, ⟨4, 1⟩] 0 =
      (cappedLine.1, cappedLine.2) := Prod.mk.eta.symm
  have hfree : cappedSpace =
      { cappedLine.1 with space := { cappedLine.1.space with free := 60 } } := rfl
  have hflex : cappedFlex =
      cappedLine.2.flexState (rowContainer 100) (.known 100) cappedSpace := rfl
  have hend : cappedEnd = freeze cappedFlex.items.length cappedFlex.items cappedFlex.space 0 := rfl
  have hgrow : ∀ i ∈ cappedFlex.items, 0 ≤ i.grow := by decide +kernel
  have hsum : 1 ≤ (cappedFlex.items.map FlexItem.grow).sum := by decide +kernel
  have hrounds : ∀ k ≤ cappedEnd.rounds, 0 < (cappedFlex.after k).space.free := by decide +kernel
  have hleft : ∃ i ∈ cappedEnd.items, i.frozen = none ∧ 0 < i.grow := by decide +kernel
  exact ⟨by decide +kernel, by decide +kernel,
    (growing_conserves_space hline hfree hflex hend hgrow hsum cappedLine_roomy hrounds hleft).1⟩

end Pass

end Flexbox
