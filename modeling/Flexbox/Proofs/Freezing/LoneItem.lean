import Flexbox.Proofs.Freezing.Conserving

namespace Flexbox

namespace FlexItem

/-- No space makes the item break a bound. -/
def Still (i : FlexItem ℚ) : Prop := ∀ space, i.violation? space = none

/-- The item neither grows nor shrinks. -/
structure Rigid (i : FlexItem ℚ) : Prop where
  grow : i.grow = 0
  shrink : i.shrink = 0
  frozen : i.frozen = none

variable {i : FlexItem ℚ}

theorem Rigid.flexed? (h : i.Rigid) (space : Space ℚ) : i.flexed? space = none := by
  simp [FlexItem.flexed?, h.grow, h.shrink]

theorem Rigid.still (h : i.Rigid) : i.Still := fun space => by
  simp [violation?, h.frozen, h.flexed? space]

theorem Rigid.finalSize (h : i.Rigid) (space : Space ℚ) : i.finalSize space = i.basis := by
  simp [FlexItem.finalSize, h.frozen, h.flexed? space]

end FlexItem

open FlexItem (Still Rigid)

variable {items before behind : List (FlexItem ℚ)} {i : FlexItem ℚ} {space : Space ℚ}
  {c : Container ℚ} {innerMain : Extent ℚ} {n : Node ℚ} {x : NodeId} {room : ℚ}

theorem freeze_lone (hb : ∀ i ∈ before, i.Rigid) (hn : ∀ i ∈ behind, i.Rigid)
    (hi : i.frozen = none) {fuel : Nat} {f : Frozen ℚ}
    (hf : freeze (fuel + 1) (before ++ i :: behind) space 0 = f) :
    f.items.map (fun j => (j.id, j.finalSize f.space)) =
      (before ++ i :: behind).map fun j => (j.id, j.finalSize space) := by
  have hrigid : ∀ {l : List (FlexItem ℚ)}, (∀ i ∈ l, i.Rigid) → ∀ space',
      (l.map fun j => (j.id, j.finalSize space')) = l.map fun j => (j.id, j.finalSize space) :=
    fun hl space' => List.map_congr_left fun j hj => by
      rw [(hl j hj).finalSize, (hl j hj).finalSize]
  have hkept : ∀ {l : List (FlexItem ℚ)}, (∀ i ∈ l, i.Rigid) → ∀ round : FreezeRound ℚ,
      l.foldl FreezeRound.step round = { round with seen := l.reverse ++ round.seen } :=
    fun hl round => FreezeRound.foldl_kept round fun j hj => (hl j hj).still round.space
  have hround : (before ++ i :: behind).foldl FreezeRound.step ⟨space, 0, false, []⟩ =
      behind.foldl FreezeRound.step
        (FreezeRound.step ⟨space, 0, false, before.reverse⟩ i) := by
    rw [List.foldl_append, hkept hb, List.append_nil, List.foldl_cons]
  cases hv : i.violation? space with
  | none =>
    rw [FreezeRound.step, hv, hkept hn] at hround
    rw [freeze, hround] at hf
    subst hf
    simp
  | some size =>
    rw [FreezeRound.step, hv, hkept hn] at hround
    obtain ⟨-, share, hshare, -, -, hsize⟩ := FlexItem.violation?_eq_some.mp hv
    have hall : ∀ j ∈ before ++ { i with frozen := some size } :: behind, j.Still := by
      intro j hj
      rcases List.mem_append.mp hj with hj | hj
      · exact (hb j hj).still
      · rcases List.mem_cons.mp hj with rfl | hj
        · exact FlexItem.violation?_frozen rfl
        · exact (hn j hj).still
    have hlone : i.finalSize space = size := by simp [FlexItem.finalSize, hi, hshare, hsize]
    rw [freeze, hround] at hf
    simp only [List.reverse_append, List.reverse_cons, List.reverse_reverse, List.append_assoc,
      List.singleton_append, if_true,
      freeze_kept sub_zero fun j hj => hall j hj _] at hf
    subst hf
    rw [List.map_append, List.map_append, List.map_cons, List.map_cons, hrigid hb, hrigid hn, hlone]
    rfl

/-- The basis of an item within its size bounds. -/
def Container.basisOf (c : Container ℚ) (n : Node ℚ) : ℚ := n.clampedBasis c.mainAxis c.ownerMain

namespace Line

variable {c : Container ℚ} {f : NodeId → Node ℚ} {ownerMain innerMain : Extent ℚ}

/-- The children in flow. -/
def inFlow (f : NodeId → Node ℚ) (xs : List NodeId) : List NodeId :=
  xs.filter fun x => (f x).isInFlow

/-- What the children in flow take up. -/
def used (c : Container ℚ) (f : NodeId → Node ℚ) (xs : List NodeId) : ℚ :=
  ((inFlow f xs).map fun x => c.basisOf (f x) + (f x).marginFor c.mainAxis c.innerWidth).sum

theorem fill_append (xs ys : List (NodeId × Node ℚ)) (line : Line ℚ) :
    fill c false ownerMain innerMain (xs ++ ys) line =
      fill c false ownerMain innerMain ys (fill c false ownerMain innerMain xs line) := by
  induction xs generalizing line with
  | nil => rfl
  | cons x xs ih =>
    simp only [List.cons_append, fill, Bool.false_and, Bool.false_eq_true, if_false]
    split <;> exact ih _

theorem fill_rigid {xs : List NodeId} (h : ∀ x ∈ xs, (f x).isFlexible = false) (line : Line ℚ) :
    fill c false c.ownerMain innerMain (xs.map fun x => (x, f x)) line =
      { line with
        items := line.items ++ inFlow f xs
        length := line.length + xs.length
        consumed := line.consumed + used c f xs } := by
  induction xs generalizing line with
  | nil => simp [fill, used, inFlow]
  | cons x xs ih =>
    have ih := ih fun y hy => h y (by simp [hy])
    have hx := h x (by simp)
    cases hflow : (f x).isInFlow with
    | false =>
      simp [fill, hflow, ih, skip, used, inFlow, Nat.add_comm, Nat.add_left_comm]
    | true =>
      simp [fill, hflow, ih, add, hx, used, inFlow, Container.basisOf, Nat.add_comm, add_assoc]

end Line

theorem FlexItem.finalSize_lone {basis shrink : ℚ} (hi : i.frozen = none) (hg : 1 ≤ i.grow)
    (hshrink : i.shrink = -shrink * i.basis) (hs : 0 < shrink)
    (h : i.basis < room ∨ i.basis = basis ∧ 0 < basis ∧ i.bound basis = basis) :
    i.finalSize ⟨room - i.basis, Line.raised i.grow, Line.raised (-shrink * basis)⟩ =
      i.bound room := by
  have hgrow : Line.raised i.grow = i.grow := if_neg (by simp [not_lt.mpr hg])
  have hne : i.grow ≠ 0 := by linarith
  rcases lt_trichotomy i.basis room with hlt | heq | hgt
  · have hfree : 0 < room - i.basis := sub_pos.mpr hlt
    simp [finalSize, flexed?, hi, hgrow, hne, hfree, hfree.le.not_gt]
  · obtain ⟨hb, -, hbound⟩ := h.resolve_left heq.not_lt
    simp [finalSize, flexed?, hi, ← heq, hb, hbound]
  · obtain ⟨hb, hpos, -⟩ := h.resolve_left hgt.not_gt
    have hneg : -shrink * basis < 0 := by nlinarith
    have htotal : Line.raised (-shrink * basis) = -shrink * basis :=
      if_neg (by simp only [Bool.and_eq_true, decide_eq_true_eq]; exact fun h => h.1.not_gt hneg)
    rw [hb] at hshrink hgt
    rw [finalSize, hi, flexed?, htotal, hb, hshrink]
    dsimp only
    rw [if_pos (sub_neg.mpr hgt), if_pos (bne_iff_ne.mpr hneg.ne),
      if_neg (by simpa using hneg.ne), div_mul_cancel₀ _ hneg.ne, add_sub_cancel]

theorem Node.finalSize_lone {basis : ℚ} (hg : 1 ≤ n.resolveGrow) (hs : 0 < n.resolveShrink)
    (h : c.basisOf n < room ∨ c.basisOf n = basis ∧ 0 < basis ∧
      n.bound c.mainAxis (.of basis) innerMain c.innerWidth = basis) :
    (c.flexItem innerMain x n).finalSize ⟨room - c.basisOf n, Line.raised n.resolveGrow,
      Line.raised (-n.resolveShrink * basis)⟩ =
        n.bound c.mainAxis (.of room) innerMain c.innerWidth :=
  FlexItem.finalSize_lone rfl hg rfl hs h

theorem Node.flexItem_rigid (hflow : n.isInFlow = true) (h : n.isFlexible = false) :
    (c.flexItem innerMain x n).Rigid := by
  obtain ⟨hgrow, hshrink⟩ := n.resolve_rigid hflow h
  exact ⟨hgrow, by simp [Container.flexItem, hshrink], rfl⟩

namespace Pass

variable {p q : Pass ℚ} {c : Container ℚ} {x : NodeId} {children before behind : List NodeId}
  {available : ℚ}

/-- The main sizes that a line with `available` space gives to the children of a container. -/
def mainSizes (p : Pass ℚ) (c : Container ℚ) (available : ℚ) (children : List NodeId) :
    List (NodeId × ℚ) :=
  let (line, q) := p.collectLine c (.known available) children 0
  let space := { line.space with free := available - line.consumed }
  let s := q.flexState c (.known available) { line with space := space }
  let f := freeze s.items.length s.items s.space 0
  f.items.map fun i => (i.id, i.finalSize f.space)

/-- The space that a line leaves to one of its items. -/
def roomFor (p : Pass ℚ) (c : Container ℚ) (available : ℚ) (before : List NodeId) (x : NodeId)
    (behind : List NodeId) : ℚ :=
  available - (Line.used c p.node before +
    (p.node x).marginFor c.mainAxis c.innerWidth + Line.used c p.node behind)

variable (hwrap : (p.node c.id).style.flexWrap = .noWrap) (hflow : (p.node x).isInFlow = true)
  (hflex : (p.node x).isFlexible = true) (hb : ∀ y ∈ before, (p.node y).isFlexible = false)
  (hn : ∀ y ∈ behind, (p.node y).isFlexible = false)

include hwrap hflow hflex hb hn

theorem collectLine_lone :
    (p.collectLine c (.known available) (before ++ x :: behind) 0).1 =
      { items := Line.inFlow p.node before ++ x :: Line.inFlow p.node behind
        length := before.length + 1 + behind.length
        consumed := Line.used c p.node before +
          (c.basisOf (p.node x) +
            (p.node x).marginFor c.mainAxis c.innerWidth) + Line.used c p.node behind
        space := ⟨0, Line.raised (p.node x).resolveGrow,
          Line.raised (-(p.node x).resolveShrink * (p.node x).geometry.flexBasis.getD 0)⟩
        mainSize := 0
        crossSize := 0 } := by
  simp only [collectLine, Line.collect, hwrap, List.map_append, List.map_cons, bne_self_eq_false]
  rw [Line.fill_append, Line.fill_rigid hb, Line.fill]
  simp only [hflow, Bool.not_true, Bool.false_eq_true, if_false, Bool.false_and]
  rw [Line.fill_rigid hn]
  simp [Line.add, hflex, Line.empty, Container.basisOf]

theorem mainSizes_lone :
    p.mainSizes c available (before ++ x :: behind) =
      (Line.inFlow p.node before).map (fun y => (y, c.basisOf (p.node y))) ++
        (x, (c.flexItem (.known available) x (p.node x)).finalSize
          ⟨p.roomFor c available before x behind - c.basisOf (p.node x),
            Line.raised (p.node x).resolveGrow,
            Line.raised (-(p.node x).resolveShrink * (p.node x).geometry.flexBasis.getD 0)⟩) ::
        (Line.inFlow p.node behind).map fun y => (y, c.basisOf (p.node y)) := by
  have hrigid : ∀ {ys : List NodeId}, (∀ y ∈ ys, (p.node y).isFlexible = false) →
      ∀ i ∈ (Line.inFlow p.node ys).map (fun y => c.flexItem (.known available) y (p.node y)),
        i.Rigid := by
    intro ys hys i hi
    obtain ⟨y, hy, rfl⟩ := List.mem_map.mp hi
    obtain ⟨hmem, hin⟩ := List.mem_filter.mp hy
    exact Node.flexItem_rigid hin (hys y hmem)
  have hsizes : ∀ {ys : List NodeId}, (∀ y ∈ ys, (p.node y).isFlexible = false) → ∀ space,
      ((Line.inFlow p.node ys).map (fun y => c.flexItem (.known available) y (p.node y))).map
        (fun j => (j.id, j.finalSize space)) = (Line.inFlow p.node ys).map fun y =>
          (y, c.basisOf (p.node y)) := by
    intro ys hys space
    rw [List.map_map]
    exact List.map_congr_left fun y hy => Prod.ext rfl
      ((hrigid hys _ (List.mem_map_of_mem hy)).finalSize space)
  have hl : (p.collectLine c (.known available) (before ++ x :: behind) 0).1 = _ :=
    collectLine_lone hwrap hflow hflex hb hn
  rcases hline : p.collectLine c (.known available) (before ++ x :: behind) 0 with ⟨line, q⟩
  rw [hline] at hl
  obtain rfl : line = _ := hl
  have hitem : (fun y => c.flexItem (.known available) y (q.node y)) =
      fun y => c.flexItem (.known available) y (p.node y) :=
    funext fun y => collectLine_items_eq hline _ y
  have hfree : available - (Line.used c p.node before +
      (c.basisOf (p.node x) + (p.node x).marginFor c.mainAxis c.innerWidth) +
        Line.used c p.node behind) =
      p.roomFor c available before x behind - c.basisOf (p.node x) := by
    unfold roomFor
    ring
  simp only [mainSizes, hline, flexState, hitem, hfree, List.map_append, List.map_cons,
    List.length_append, List.length_cons, ← Nat.add_assoc]
  rw [freeze_lone (hrigid hb) (hrigid hn) rfl rfl, List.map_append, List.map_cons, hsizes hb,
    hsizes hn]
  rfl

omit hwrap hflow hflex hb hn

theorem used_congr {xs : List NodeId} (hsame : ∀ y, Node.SameCore (p.node y) (q.node y))
    (hbases : ∀ y ∈ xs, (q.node y).geometry.flexBasis = (p.node y).geometry.flexBasis) :
    Line.inFlow q.node xs = Line.inFlow p.node xs ∧
    ((Line.inFlow p.node xs).map fun y => (y, c.basisOf (q.node y))) =
      (Line.inFlow p.node xs).map (fun y => (y, c.basisOf (p.node y))) ∧
    Line.used c q.node xs = Line.used c p.node xs := by
  have hflow : Line.inFlow q.node xs = Line.inFlow p.node xs :=
    List.filter_congr fun y _ => by rw [hsame y]; rfl
  have hbasis : ∀ y ∈ xs, c.basisOf (q.node y) = c.basisOf (p.node y) := fun y hy => by
    rw [Container.basisOf, Node.clampedBasis, hbases y hy, hsame y]
    rfl
  refine ⟨hflow, List.map_congr_left fun y hy => by rw [hbasis y (List.mem_filter.mp hy).1], ?_⟩
  rw [Line.used, hflow]
  refine congrArg List.sum (List.map_congr_left fun y hy => ?_)
  rw [hbasis y (List.mem_filter.mp hy).1, hsame y]
  rfl

/-- On a single line the one flexible child comes to the same size from a basis of nothing as from
its own, and all others have theirs: if its factor is at least one, if its own basis is within its
bounds, and if there is space left beside the least that it can be. It is given a basis of nothing
where the container is to fill its main axis. -/
theorem lone_basis_immaterial (hsame : ∀ y, Node.SameCore (p.node y) (q.node y))
    (hwrap : (p.node c.id).style.flexWrap = .noWrap) (hflow : (p.node x).isInFlow = true)
    (hx : x ∈ children) (hnodup : children.Nodup)
    (hothers : ∀ y ∈ children, y ≠ x → (p.node y).isFlexible = false ∧
      (q.node y).geometry.flexBasis = (p.node y).geometry.flexBasis)
    (hgrow : 1 ≤ (p.node x).resolveGrow) (hshrink : 0 < (p.node x).resolveShrink)
    (hzero : (p.node x).geometry.flexBasis = .known 0) {basis : ℚ} (hpos : 0 ≤ basis)
    (hbasis : (q.node x).geometry.flexBasis = .known basis)
    (hclamp : c.basisOf (q.node x) = basis)
    (hbound : (q.node x).bound c.mainAxis (.known basis) (.known available) c.innerWidth = basis)
    (hroom : (p.collectLine c (.known available) children 0).1.consumed < available) :
    q.mainSizes c available children = p.mainSizes c available children ∧
    ∀ (b : Pass ℚ) (v : Visitor ℚ), Nested b c.id → Discreet v → x ∈ b.children c.id →
      (b.node x).isInFlow = true → b.loneChild c = some x →
      ((b.basisOfChildren v c).2.node x).geometry.flexBasis = .known 0 := by
  refine ⟨?_, fun b v hb hv hx hin => (basisOfChildren_based hb hv hx hin).2⟩
  obtain ⟨before, behind, rfl⟩ := List.append_of_mem hx
  have hnot := (List.nodup_cons.mp (List.nodup_middle.mp hnodup)).1
  have hrest : ∀ y ∈ before ++ behind, (p.node y).isFlexible = false ∧
      (q.node y).geometry.flexBasis = (p.node y).geometry.flexBasis := fun y hy =>
    hothers y (by simp only [List.mem_append, List.mem_cons] at hy ⊢; tauto)
      fun he => hnot (he ▸ hy)
  have hb := fun y (hy : y ∈ before) => hrest y (List.mem_append_left _ hy)
  have hn := fun y (hy : y ∈ behind) => hrest y (List.mem_append_right _ hy)
  have hflex : (p.node x).isFlexible = true := by
    by_contra hno
    rw [(Node.resolve_rigid hflow (by simpa using hno)).1] at hgrow
    exact absurd hgrow (by norm_num)
  have hkept : ∀ y, (q.node y).isFlexible = (p.node y).isFlexible := fun y => by
    rw [hsame y]
    rfl
  obtain ⟨hflowB, hsizesB, husedB⟩ := used_congr (c := c) hsame fun y hy => (hb y hy).2
  obtain ⟨hflowN, hsizesN, husedN⟩ := used_congr (c := c) hsame fun y hy => (hn y hy).2
  have hroomFor : q.roomFor c available before x behind =
      p.roomFor c available before x behind := by
    rw [roomFor, husedB, husedN, hsame x]
    rfl
  rw [mainSizes_lone hwrap hflow hflex (fun y hy => (hb y hy).1) fun y hy => (hn y hy).1,
    mainSizes_lone (p := q) (by rw [hsame]; exact hwrap) (by rw [hsame]; exact hflow)
      ((hkept x).trans hflex) (fun y hy => (hkept y).trans (hb y hy).1)
      fun y hy => (hkept y).trans (hn y hy).1, hflowB, hflowN, hroomFor]
  rw [collectLine_lone hwrap hflow hflex (fun y hy => (hb y hy).1) fun y hy => (hn y hy).1] at hroom
  have hlt : c.basisOf (p.node x) < p.roomFor c available before x behind := by
    unfold roomFor
    linarith
  -- Both ways the child gets all of the room.
  have hq : c.basisOf (q.node x) < p.roomFor c available before x behind ∨
      c.basisOf (q.node x) = (q.node x).geometry.flexBasis.getD 0 ∧
      0 < (q.node x).geometry.flexBasis.getD 0 ∧ (q.node x).bound c.mainAxis
        (.of ((q.node x).geometry.flexBasis.getD 0)) (.known available) c.innerWidth =
          (q.node x).geometry.flexBasis.getD 0 := by
    rcases hpos.eq_or_lt with rfl | hpos
    · left
      rwa [Container.basisOf, Node.clampedBasis, hbasis, ← hzero, hsame x]
    · right
      rw [hbasis, Exact.of_eq]
      exact ⟨hclamp, hpos, hbound⟩
  rw [Node.finalSize_lone hgrow hshrink (Or.inl hlt),
    Node.finalSize_lone (n := q.node x) (by rw [hsame]; exact hgrow)
      (by rw [hsame]; exact hshrink) hq]
  have hbounds : (q.node x).bound c.mainAxis = (p.node x).bound c.mainAxis := by
    rw [hsame x]
    rfl
  rw [hbounds, hsizesB, hsizesN]

/-- A row with one child that grows by the given factor, and its basis. -/
def soloRow (grow basis : ℚ) (more : List (Call ℚ) := []) : Pass ℚ :=
  (start ((Tree.empty .initial).after ([.newNode none, .newNode none, .addChild ⟨1, 1⟩ ⟨2, 1⟩,
    .updateStyle ⟨1, 1⟩ fun s => { s with flexDirection := .row },
    .updateStyle ⟨2, 1⟩ fun s => { s with flexGrow := .known grow, flexShrink := .known 1 }] ++
    more)) .initial).setBasis ⟨2, 1⟩ (.known basis)

/-- The child takes half of the space that is left: of all of it from a basis of nothing, and of
what its basis leaves otherwise. -/
theorem lone_basis_counts_solo :
    (soloRow (1 / 2) 0).mainSizes (rowContainer 100) 100 [⟨2, 1⟩] = [(⟨2, 1⟩, 50)] ∧
    (soloRow (1 / 2) 20).mainSizes (rowContainer 100) 100 [⟨2, 1⟩] = [(⟨2, 1⟩, 60)] := by
  constructor <;> decide +kernel

/-- Adds a child that cannot flex. -/
def beside : List (Call ℚ) :=
  [.newNode none, .addChild ⟨1, 1⟩ ⟨3, 1⟩,
    .updateStyle ⟨3, 1⟩ fun s => { s with minSize := ⟨.points 30, .undefined⟩ }]

theorem lone_basis_immaterial_beside :
    (soloRow 1 20 beside).mainSizes (rowContainer 100) 100 [⟨2, 1⟩, ⟨3, 1⟩] =
      (soloRow 1 0 beside).mainSizes (rowContainer 100) 100 [⟨2, 1⟩, ⟨3, 1⟩] := by
  have hsame : ∀ y, Node.SameCore ((soloRow 1 0 beside).node y) ((soloRow 1 20 beside).node y) := by
    intro y
    unfold soloRow
    generalize start _ _ = u
    unfold node setBasis updateGeometry update
    rw [Tree.find?_update, Tree.find?_update]
    split
    · cases u.tree.find? y <;> rfl
    · exact .refl _
  have hbasis : ((soloRow 1 20 beside).node ⟨2, 1⟩).geometry.flexBasis = .known 20 := by
    decide +kernel
  exact (lone_basis_immaterial (x := ⟨2, 1⟩) hsame (by decide +kernel) (by decide +kernel) (by simp)
    (by simp) (by decide +kernel) (by decide +kernel) (by decide +kernel) (by decide +kernel)
    (by norm_num) hbasis (by decide +kernel) (by decide +kernel) (by decide +kernel)).1

end Pass

end Flexbox
