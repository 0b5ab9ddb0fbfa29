import Flexbox.Proofs.Tandem.Lines

namespace Flexbox

open Pass

theorem Pass.stretches_eq {α : Type} [Scalar α] {c : Container α} (parent child : Node α) :
    (parent.alignOf child == .stretch && !(child.leadingMarginValue c.crossAxis).isAuto &&
        !(child.trailingMarginValue c.crossAxis).isAuto &&
        !child.hasDefiniteSize c.crossAxis c.innerCross) = c.stretchesChild parent child := by
  unfold Container.stretchesChild Node.hasAutoMargin
  cases child.hasDefiniteSize c.crossAxis c.innerCross <;>
    cases parent.alignOf child == .stretch <;>
    cases (child.leadingMarginValue c.crossAxis).isAuto <;>
    cases (child.trailingMarginValue c.crossAxis).isAuto <;> rfl

theorem Pass.le_measureLine {α : Type} [Scalar α] (c : Container α) (number : Nat)
    (xs : List NodeId) (e : LineExtent α) (n : Nat) (p : Pass α) :
    n ≤ (p.measureLine c number xs e n).1.2 := by
  induction xs generalizing e n p with
  | nil => exact le_rfl
  | cons x xs ih =>
    rw [measureLine]
    dsimp only
    split
    · split
      · exact le_rfl
      · exact (Nat.le_succ n).trans (ih _ _ _)
    · exact (Nat.le_succ n).trans (ih _ _ _)

namespace Tandem

variable {α : Type} [Scalar α] {T : Pairing α} (hT : Tandem T) {K : Set Fact} {p q : Pass α}
  {x : NodeId} {xs : List NodeId}

include hT

theorem alignOf (h : T.Sees K p q) (hx : T.Kid x) :
    (p.node T.c.id).alignOf (p.node x) = (T.base.node T.c.id).alignOf (T.base.node x) ∧
      (q.node T.c.id).alignOf (q.node x) = (T.base.node T.c.id).alignOf (T.base.node x) := by
  rw [(hT.parent h).1.alignOf (hT.kid h hx).1, Node.alignOf, hT.parent_style h,
    hT.kid_style h.moves hx.1]
  exact ⟨rfl, rfl⟩

theorem placeAbsoluteCross (h : T.Sees K p q) (hx : T.Kid x) :
    T.Sees K (p.placeAbsoluteCross T.c x) (q.placeAbsoluteCross T.c' x) := by
  have hn := (hT.kid h hx).1
  unfold Pass.placeAbsoluteCross
  dsimp only
  rw [Container.turn_id, Container.turn_crossAxis, Container.turn_innerCross,
    Container.turn_innerWidth, (hT.parent h).1.leadingBorder, hn.hasLeadingInset,
    hn.leadingPosition, hn.leadingMargin, FlexDirection.turn_leading]
  exact hT.places h hx _ _

theorem placeItemCross (plan : CrossPlan α) (h : T.Sees K p q) (hx : T.Kid x)
    (hs : .sized x ∈ K) (hm : .measured x ∈ K) :
    T.Goes K (p.placeItemCross T.visit T.c plan x) (q.placeItemCross T.visit' T.c' plan x) := by
  have hp := (hT.parent h).1
  have hn := (hT.kid h hx).1
  have hmeasured := hT.measure h (Or.inr hx) hm
  unfold Pass.placeItemCross
  dsimp only
  rw [Container.turn_id, Container.turn_crossAxis, Container.turn_innerCross,
    Container.turn_innerWidth, hp.alignOf hn, hn.leadingMarginValue, hn.trailingMarginValue,
    Node.hasDefiniteSize_turn (hT.size h hx hs), hn.outerSize _ hmeasured,
    Container.stretchRequest_turn hn hmeasured, stretches_eq, FlexDirection.turn_leading]
  cases hstretch : T.c.stretchesChild (p.node T.c.id) (p.node x) with
  | true =>
    simp only [if_true]
    refine hT.follow (hT.asks h hx (T.c.stretchRequest plan.innerMain plan.lineCross (p.node x))
      (Or.inl rfl)) (shiftBy_works _ _ hx.1) fun _ hs => ?_
    exact hT.weaken ((hT.shifts hs hx _ _).runs ()) (Set.subset_insert _ _)
  | false =>
    simp only [Bool.false_eq_true, if_false]
    exact (hT.shifts h hx _ _).runs ()

theorem placeChildCross (plan : CrossPlan α) (h : T.Sees K p q) (hx : T.Kid x)
    (hs : .sized x ∈ K) (hf : (T.base.node x).isInFlow = true → .measured x ∈ K) :
    T.Goes K (p.placeChildCross T.visit T.c plan x) (q.placeChildCross T.visit' T.c' plan x) := by
  unfold Pass.placeChildCross
  dsimp only
  rw [(hT.isHidden h hx).1, (hT.isHidden h hx).2, (hT.isAbsolute h hx).1, (hT.isAbsolute h hx).2]
  by_cases hhidden : (T.base.node x).isHidden = true
  · simp only [hhidden, if_true]
    exact h.runs ()
  by_cases habs : (T.base.node x).isAbsolute = true
  · simp only [hhidden, habs, Bool.false_eq_true, if_false, if_true]
    exact (hT.placeAbsoluteCross h hx).runs ()
  simp only [hhidden, habs, Bool.false_eq_true, if_false]
  exact hT.placeItemCross plan h hx hs (hf (by simp [Node.isInFlow, hhidden, habs]))

theorem alignLine (plan : CrossPlan α) (h : T.Sees K p q) (hxs : ∀ x ∈ xs, x ∈ T.kids)
    (hs : ∀ x ∈ xs, T.keeps x = true → .sized x ∈ K)
    (hf : ∀ x ∈ xs, (T.base.node x).isInFlow = true → .measured x ∈ K) :
    T.Goes K (p.alignLine T.visit T.c plan xs) (q.alignLine T.visit' T.c' plan (T.seen xs)) := by
  refine hT.walk h (fun _ x hx => (placeChildCross_works plan (hxs x hx)).about)
    (fun _ _ x hx hk _ hL hs' => hT.placeChildCross plan hs' ⟨hxs x hx, hk⟩ (hL (hs x hx hk))
      fun hflow => hL (hf x hx hflow)) fun u _ x hx hno _ hs' => ?_
  rw [Pass.placeChildCross, if_pos (hT.spared hs'.moves (hxs x hx) hno).1]
  exact hs'.runs ()

theorem extendLine (e : LineExtent α) (h : T.Sees K p q) (hx : T.Kid x)
    (hflow : (T.base.node x).isInFlow = true) (hm : .measured x ∈ K) :
    T.Ends K (p.extendLine T.c x e) (q.extendLine T.c' x e) := by
  have hn := (hT.kid h hx).1
  have hmeasured := hT.measure h (Or.inr hx) hm
  have hhas : (q.node x).hasMeasuredSize (T.c.crossAxis.turn T.e) =
      (p.node x).hasMeasuredSize T.c.crossAxis := by
    simp only [Node.hasMeasuredSize, hmeasured, FlexDirection.turn_dimension]
  unfold Pass.extendLine
  dsimp only
  rw [Container.turn_id, Container.turn_crossAxis, Container.turn_innerWidth, hhas,
    hn.outerSize _ hmeasured, (hT.alignOf h hx).1, (hT.alignOf h hx).2]
  split
  · rename_i hline
    refine (hT.ascentAndDescent T.c.innerWidth h hx hm
      (Or.inr ⟨hflow, eq_of_beq hline⟩)).with fun he => ?_
    simp only [he]
  · exact h.runs _

theorem measureLine (number : Nat) (e : LineExtent α) (n n' : Nat) (h : T.Sees K p q)
    (hxs : ∀ x ∈ xs, x ∈ T.kids)
    (hf : ∀ x ∈ xs, (T.base.node x).isInFlow = true → .lined x ∈ K ∧ .measured x ∈ K) :
    T.Runs K ((p.measureLine T.c number xs e n).1.1,
        n' + (T.seen (xs.take ((p.measureLine T.c number xs e n).1.2 - n))).length)
      (q.measureLine T.c' number (T.seen xs) e n').1 (p.measureLine T.c number xs e n).2
      (q.measureLine T.c' number (T.seen xs) e n').2 := by
  induction xs generalizing e n n' p q with
  | nil => exact (h.runs ()).with fun _ => by simp [Pass.measureLine]
  | cons x xs ih =>
    have hx := hxs x (by simp)
    -- The rest of the line is as much longer in either pass as this child makes it.
    have ih : ∀ e {p q}, T.Sees K p q → T.Runs K ((p.measureLine T.c number xs e (n + 1)).1.1,
          n' + (T.seen ((x :: xs).take ((p.measureLine T.c number xs e (n + 1)).1.2 - n))).length)
        (q.measureLine T.c' number (T.seen xs) e (n' + (T.seen [x]).length)).1
        (p.measureLine T.c number xs e (n + 1)).2
        (q.measureLine T.c' number (T.seen xs) e (n' + (T.seen [x]).length)).2 := by
      intro e p q h
      obtain ⟨k, hk⟩ := Nat.exists_eq_add_of_le (le_measureLine T.c number xs e (n + 1) p)
      have hlong : n + 1 + k - n = k + 1 := by omega
      refine (ih e (n + 1) (n' + (T.seen [x]).length) h (fun y hy => hxs y (by simp [hy]))
        fun y hy => hf y (by simp [hy])).with fun hsame => ?_
      rw [hsame, hk, Nat.add_sub_cancel_left, hlong, List.take_succ_cons, Nat.add_assoc,
        ← List.length_append, ← List.filter_append, List.singleton_append]
    cases hkeep : T.keeps x with
    | false =>
      simp only [List.filter_cons, hkeep, Bool.false_eq_true, if_false, List.filter_nil,
        List.length_nil, Nat.add_zero] at ih
      have hlist : T.seen (x :: xs) = T.seen xs := List.filter_cons_of_neg (by simp [hkeep])
      rw [hlist, Pass.measureLine]
      dsimp only
      rw [(hT.spared h.moves hx hkeep).2]
      exact ih e h
    | true =>
      have hx : T.Kid x := ⟨hx, hkeep⟩
      simp only [List.filter_cons, hkeep, if_true, List.filter_nil, List.length_singleton] at ih
      have hlist : T.seen (x :: xs) = x :: T.seen xs := List.filter_cons_of_pos hkeep
      rw [hlist, Pass.measureLine, Pass.measureLine]
      dsimp only
      rw [(hT.isInFlow h hx).1, (hT.isInFlow h hx).2]
      by_cases hflow : (T.base.node x).isInFlow = true
      · obtain ⟨hl, hm⟩ := hf x (by simp) hflow
        simp only [hflow, if_true, hT.line h hx hl]
        split
        · exact (h.runs ()).with fun _ => by simp
        · refine hT.follow (hT.extendLine e h hx hflow hm) (measureLine_works _ _ _ _ trivial)
            fun he hs => ?_
          rw [he]
          exact ih _ hs
      · simp only [hflow, Bool.false_eq_true, if_false]
        exact ih _ h

theorem restretch (height : α) (h : T.Sees K p q) (hx : T.Kid x) {n m : Node α}
    (hn : n.Faces T.e m) (hs : m.resolvedSize = n.resolvedSize)
    (hm : m.geometry.measured = n.geometry.measured) :
    T.Goes K (p.restretch T.visit T.c height x n) (q.restretch T.visit' T.c' height x m) := by
  have hsize : m.geometry.measuredSize = n.geometry.measuredSize := by
    funext d
    rw [Geometry.measuredSize, Geometry.measuredSize, hm]
  unfold Pass.restretch
  dsimp only
  rw [Container.turn_isRow, Container.turn_mainAxis, Container.turn_crossAxis,
    Container.turn_innerWidth, Container.turn_innerHeight, Container.turn_innerCross,
    Container.turn_direction, hn.marginFor, hn.marginFor, Node.hasDefiniteSize_turn hs, hsize]
  generalize (if T.c.isRow then _ else height : α) = width
  generalize (if T.c.isRow then height else _ : α) = height
  split
  · exact hT.weaken (hT.asks h hx ⟨_, _, T.c.direction, _, _, true⟩ (Or.inl rfl))
      (Set.subset_insert _ _)
  · exact h.runs ()

theorem alignInLine (lead : α) (e : LineExtent α) (h : T.Sees K p q) (hx : T.Kid x)
    (hs : .sized x ∈ K) (hf : (T.base.node x).isInFlow = true → .measured x ∈ K) :
    T.Goes K (p.alignInLine T.visit T.c lead e x) (q.alignInLine T.visit' T.c' lead e x) := by
  have hn := (hT.kid h hx).1
  unfold Pass.alignInLine
  dsimp only
  rw [(hT.isInFlow h hx).1, (hT.isInFlow h hx).2]
  by_cases hflow : (T.base.node x).isInFlow = true
  · have hm := hT.measure h (Or.inr hx) (hf hflow)
    have hplace := hn.leadingPosition .column T.c.innerCross
    rw [FlexDirection.turn_column] at hplace
    simp only [hflow, Bool.not_true, Bool.false_eq_true, if_false]
    rw [Container.turn_id, Container.turn_crossAxis, Container.turn_innerWidth,
      Container.turn_innerCross, (hT.alignOf h hx).1, (hT.alignOf h hx).2, hn.leadingMargin,
      hn.trailingMargin, Node.measuredSize_turn hm, FlexDirection.turn_leading, hplace]
    have hset := fun a => hT.places h hx T.c.crossAxis.leading a
    split
    · exact (hset _).runs ()
    · exact (hset _).runs ()
    · exact (hset _).runs ()
    · exact hT.restretch _ (hset _) hx hn (hT.size h hx hs) hm
    · rename_i hline
      obtain ⟨hvalue, hholds⟩ := hT.baseline h hx (Or.inr ⟨hflow, hline⟩)
      have htop := hT.places (h.on hholds (baselineWithin_moves _)) hx .top
      rw [Side.turn_top] at htop
      rw [hvalue]
      exact (htop _).runs ()
    all_goals exact h.runs ()
  · simp only [hflow, Bool.not_false, if_true]
    exact h.runs ()

theorem alignLines (extra : α) (count number : Nat) (lead : α) (h : T.Sees K p q)
    (hxs : ∀ x ∈ xs, x ∈ T.kids) (hs : ∀ x ∈ xs, T.keeps x = true → .sized x ∈ K)
    (hf : ∀ x ∈ xs, (T.base.node x).isInFlow = true → .lined x ∈ K ∧ .measured x ∈ K) :
    T.Goes K (p.alignLines T.visit T.c extra count number xs lead)
      (q.alignLines T.visit' T.c' extra count number (T.seen xs) lead) := by
  induction count generalizing number xs lead p q with
  | zero => exact h.runs ()
  | succ count ih =>
    have hline := hT.measureLine number ⟨0, 0, 0⟩ 0 0 h hxs hf
    rw [Pass.alignLines, Pass.alignLines]
    generalize p.measureLine T.c number xs ⟨0, 0, 0⟩ 0 = r at hline ⊢
    generalize q.measureLine T.c' number (T.seen xs) ⟨0, 0, 0⟩ 0 = r' at hline ⊢
    obtain ⟨⟨e, length⟩, u⟩ := r
    obtain ⟨⟨e', length'⟩, u'⟩ := r'
    dsimp only at hline ⊢
    have htake := fun x hx => hxs x (List.mem_of_mem_take (i := length) hx)
    have hdrop := fun x hx => hxs x (List.mem_of_mem_drop (i := length) hx)
    have hwork : ∀ e (r : Pass α), ∀ x ∈ xs.take length,
        T.Works r (r.alignInLine T.visit T.c lead e x) :=
      fun e r x hx => (alignInLine_works lead e (htake x hx)).about
    have hrest : ∀ {r : Pass α} lead, T.Works r
        (r.alignLines T.visit T.c extra count (number + 1) (xs.drop length) lead) := fun lead =>
      (alignLines_works extra count _ lead hdrop).about
    refine hT.follow hline ((foldl_works (fun p => p) _ fun r x hx _ => hwork _ r x hx).trans
      (hrest _)) fun hsame hu => ?_
    rw [Nat.sub_zero, Nat.zero_add] at hsame
    obtain ⟨rfl, rfl⟩ := Prod.mk.inj hsame
    rw [T.take_seen, T.drop_seen]
    have hgo := hT.walk hu (l := xs.take length)
      (f := Pass.alignInLine T.visit T.c lead { e' with height := e'.height + extra })
      (g := Pass.alignInLine T.visit' T.c' lead { e' with height := e'.height + extra })
      (hwork _) (fun _ _ x hx hk L hL hs' => hT.alignInLine lead _ hs' ⟨htake x hx, hk⟩
        (hL (hs x (List.mem_of_mem_take hx) hk))
        fun hflow => hL (hf x (List.mem_of_mem_take hx) hflow).2)
      fun u _ x hx hno L hs' => ?_
    · exact hT.follow hgo (hrest _) fun _ hs' => ih _ _ hs' hdrop
        (fun x hx => hs x (List.mem_of_mem_drop hx)) fun x hx => hf x (List.mem_of_mem_drop hx)
    · rw [Pass.alignInLine, if_pos (by rw [(hT.spared hs'.moves (htake x hx) hno).2]; rfl)]
      exact hs'.runs ()

theorem alignContent (count : Nat) (total leadingFrame : α) (h : T.Sees K p q)
    (hs : ∀ x, T.Kid x → .sized x ∈ K)
    (hf : ∀ x ∈ T.kids, (T.base.node x).isInFlow = true → .lined x ∈ K ∧ .measured x ∈ K) :
    T.Goes K (p.alignContent T.visit T.c count total leadingFrame)
      (q.alignContent T.visit' T.c' count total leadingFrame) := by
  unfold Pass.alignContent
  dsimp only
  rw [Container.turn_id, Container.turn_innerCross, hT.children h.moves, hT.children' h,
    (hT.parent h).1.alignContent]
  exact hT.alignLines _ _ _ _ h (fun _ hx => hx) (fun x hx hk => hs x ⟨hx, hk⟩) hf

theorem sizeAbsolute (widthMode : MeasureMode) (h : T.Sees K p q) (hx : T.Kid x)
    (hs : .sized x ∈ K) (hm : .measured T.c.id ∈ K) :
    T.Ends K (p.sizeAbsolute T.visit T.c widthMode x)
      (q.sizeAbsolute T.visit' T.c' widthMode x) := by
  obtain ⟨hn, hl⟩ := hT.kid h hx
  unfold Pass.sizeAbsolute
  dsimp only
  rw [Container.turn_id, Container.absoluteSizes_turn hn (hT.measure h (Or.inl rfl) hm)
    (hT.size h hx hs) hl (hT.parent h).2]
  generalize T.c.absoluteSizes _ (p.node x) = size
  split
  · unfold Pass.measureAbsolute
    dsimp only
    rw [Container.turn_isRow, Container.turn_innerWidth, Container.turn_direction]
    generalize (if !T.c.isRow && size.width.isUndefined && widthMode != .undefined &&
      T.c.innerWidth.holds (fun x => 0 < x) then _ else _ : Offer α) = width
    have hask := hT.asks h hx
      ⟨width, .exact size.height, T.c.direction, width.size, size.height, false⟩ (Or.inl rfl)
    dsimp only [Request.turn] at hask
    generalize T.visit x _ p = u at hask ⊢
    generalize T.visit' x _ q = u' at hask ⊢
    refine hT.follow hask (.refl _) fun _ hu => ?_
    have houter : ∀ axis, (u'.node x).outerSize axis T.c.innerWidth =
        (u.node x).outerSize axis T.c.innerWidth := fun axis => by
      simp only [Node.outerSize, Node.measuredSize, Geometry.measuredSize, (hT.kid hu hx).2.margins,
        hT.measure hu (Or.inr hx) (Or.inl rfl)]
    rw [houter, houter]
    exact hT.weaken (hu.runs _) (Set.subset_insert _ _)
  · exact h.runs _

theorem placeAbsolute (h : T.Sees K p q) (hx : T.Kid x) (hm : .measured x ∈ K)
    (hm' : .measured T.c.id ∈ K) :
    T.Sees K (p.placeAbsolute T.c x) (q.placeAbsolute T.c' x) := by
  have hp := (hT.parent h).1
  have hn := (hT.kid h hx).1
  have hplace := Container.absolutePosition_turn (c := T.c) hp hn
    (hT.measure h (Or.inl rfl) hm') (hT.measure h (Or.inr hx) hm)
  have hset : ∀ {p q : Pass α} side a, T.Sees K p q →
      T.Sees K (p.setPosition? x side a) (q.setPosition? x (side.turn T.e) a) := by
    intro p q side a h
    cases a with
    | none => exact h
    | some a => exact hT.places h hx side a
  unfold Pass.placeAbsolute
  dsimp only
  rw [Container.turn_id, Container.turn_mainAxis, Container.turn_crossAxis,
    Container.turn_innerMain, Container.turn_innerCross, hplace, hplace, hp.justifyContent,
    hp.flexWrap, hp.alignOf hn, FlexDirection.turn_leading, FlexDirection.turn_leading]
  exact hset _ _ (hset _ _ h)

theorem layAbsolute (widthMode : MeasureMode) (h : T.Sees K p q) (hx : T.Kid x)
    (hs : .sized x ∈ K) (hm : .measured T.c.id ∈ K) :
    T.Goes (insert (.measured x) K) (p.layAbsolute T.visit T.c widthMode x)
      (q.layAbsolute T.visit' T.c' widthMode x) := by
  have hsize := hT.sizeAbsolute widthMode h hx hs hm
  unfold Pass.layAbsolute
  dsimp only
  generalize p.sizeAbsolute T.visit T.c widthMode x = r at hsize ⊢
  generalize q.sizeAbsolute T.visit' T.c' widthMode x = r' at hsize ⊢
  obtain ⟨size, u⟩ := r
  obtain ⟨size', u'⟩ := r'
  dsimp only at hsize ⊢
  refine hT.follow hsize ((Does.works (.ask u x _) hx.1).trans (placeAbsolute_works hx.1))
    fun he hu => ?_
  subst he
  exact hT.follow (hT.asks hu hx ⟨⟨size'.width, .exactly⟩, ⟨size'.height, .exactly⟩, T.c.direction,
    size'.width, size'.height, true⟩ (Or.inl rfl)) (placeAbsolute_works hx.1) fun _ hu =>
      (hT.placeAbsolute hu hx (Or.inl rfl) (Or.inr hm)).runs ()

end Tandem

end Flexbox
