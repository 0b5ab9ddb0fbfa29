import Flexbox.Proofs.Tandem.Passes

namespace Flexbox

open Pass

def Container.skipsFlex {α : Type} (c : Container α) : Bool :=
  !c.performLayout && c.crossMode == .exactly

def JustifyState.sums {α : Type} (s : JustifyState α) : α × α × α × α :=
  (s.mainSize, s.crossSize, s.ascent, s.descent)

/-- What is known of a child before lines are made of the children. -/
inductive Pairing.Prepared {α : Type} (T : Pairing α) (x : NodeId) : Fact → Prop
  | sized : Prepared T x (.sized x)
  | started : T.c.performLayout = true → Prepared T x (.started x)
  | based : (T.base.node x).isInFlow = true → Prepared T x (.based x)
  | measured : (T.base.node x).isHidden = true → Prepared T x (.measured x)
  | cleared : (T.base.node x).isHidden = true → Prepared T x (.cleared x)

/-- What is known of an item once its line is flexed. -/
inductive Pairing.Flexed {α : Type} (T : Pairing α) (x : NodeId) : Fact → Prop
  | lined : Flexed T x (.lined x)
  | measured : T.c.skipsFlex = false → Flexed T x (.measured x)

/-- A line of `xs` as the second pass has it. -/
def Pairing.part {α : Type} (T : Pairing α) (xs : List NodeId) (line : Line α) : Line α :=
  line.spanning (T.seen (xs.take line.length)).length

namespace Tandem

variable {α : Type} [Scalar α] {T : Pairing α} (hT : Tandem T) {K : Set Fact} {p q : Pass α}
  {x : NodeId} {xs : List NodeId}

include hT

theorem asks (h : T.Sees K p q) (hx : T.Kid x) (r : Request α)
    (hr : r.ownerDirection = T.c.direction ∨
      r.ownerDirection = (p.node T.c.id).geometry.direction) :
    T.Goes (insert (.measured x) K) (T.visit x r p) (T.visit' x (r.turn T.e) q) :=
  h.goes (hT.ask h hx hr) (hT.mover x r p (hT.admitted h.moves hx.1))

theorem basisOfChild (h : T.Sees K p q) (hx : T.Kid x) (hs : .sized x ∈ K) :
    T.Goes (insert (.based x) K) (p.basisOfChild T.visit T.c x)
      (q.basisOfChild T.visit' T.c' x) := by
  have hsets : ∀ {L} {p q : Pass α} (basis : Extent α), T.Sees L p q →
      T.Goes (insert (.based x) L) (p.setBasis x basis) (q.setBasis x basis) := fun basis h =>
    (h.on (hT.setBasis h hx basis) (updateGeometry_moves (Set.mem_univ x) _)).runs ()
  have hplan := Container.planBasis_turn (c := T.c) (hT.parent h).1 (hT.kid h hx).1
    (hT.size h hx hs) (hT.kid h hx).2 (hT.stale h hx)
  unfold Pass.basisOfChild
  rw [Container.turn_id, hplan]
  cases hkind : T.c.planBasis p.generation (p.node T.c.id) (p.node x) with
  | keep =>
    exact (h.on (hT.kept h hx (Container.basisIsStale_of_keep hkind)) (.refl p)).runs ()
  | take basis => exact hsets basis h
  | measure width height =>
    have hask := hT.asks h hx
      ⟨width, height, T.c.direction, T.c.innerWidth, T.c.innerHeight, false⟩ (Or.inl rfl)
    dsimp only [Request.turn] at hask ⊢
    refine hT.follow hask (setBasis_works _ hx.1) fun _ hs => ?_
    dsimp only [Container.turn_direction, Container.turn_innerWidth, Container.turn_innerHeight]
    rw [Container.turn_mainAxis, (hT.kid hs hx).1.frameFor,
      Node.measuredSize_turn (hT.measure hs (Or.inr hx) (Or.inl rfl))]
    exact hT.weaken (hsets _ hs) (Set.insert_subset_insert (Set.subset_insert _ _))

theorem prepareBasis {lone lone' : Option NodeId} (hlone : (lone' == some x) = (lone == some x))
    (h : T.Sees K p q) (hx : T.Kid x) (hs : .sized x ∈ K) :
    T.Goes (insert (.based x) K) (p.prepareBasis T.visit T.c lone x)
      (q.prepareBasis T.visit' T.c' lone' x) := by
  unfold Pass.prepareBasis
  rw [hlone]
  split
  · exact (h.on (hT.setBasis h hx _) (updateGeometry_moves (Set.mem_univ x) _)).runs ()
  · exact hT.basisOfChild h hx hs

theorem placeAtStart (h : T.Sees K p q) (hx : T.Kid x) :
    T.Sees (K ∪ {a | T.c.performLayout = true ∧ a = .started x}) (p.placeAtStart T.c x)
      (q.placeAtStart T.c' x) := by
  by_cases hl : T.c.performLayout = true
  · refine h.on (hT.mono ?_ (hT.start h hx hl)) (hT.moves h.moves (placeAtStart_works hx.1))
    rintro a (ha | ⟨-, rfl⟩)
    · exact Or.inr ha
    · exact Or.inl rfl
  · unfold Pass.placeAtStart
    rw [Container.turn_performLayout, if_neg hl, if_neg hl]
    exact h.on (hT.mono (by simp [hl]) h.holds) (.refl p)

theorem prepareChild {lone lone' : Option NodeId} (hlone : (lone' == some x) = (lone == some x))
    {s t : α × Pass α} (h : T.Sees K s.2 t.2) (hd : t.1 = s.1) (hx : T.Kid x) :
    T.Ends (K ∪ T.Prepared x) (prepareChild T.visit T.c lone s x)
      (prepareChild T.visit' T.c' lone' t x) := by
  obtain ⟨total, p⟩ := s
  obtain ⟨total', q⟩ := t
  obtain rfl : total' = total := hd
  have hres := h.on (hT.resolve h hx) (update_moves (Set.mem_univ x) fun _ => rfl)
  unfold Pass.prepareChild
  dsimp only at hres ⊢
  generalize p.update x Node.resolveSize = u at hres ⊢
  generalize q.update x Node.resolveSize = u' at hres ⊢
  rw [(hT.isHidden hres hx).1, (hT.isHidden hres hx).2, (hT.isAbsolute hres hx).1,
    (hT.isAbsolute hres hx).2]
  by_cases hhidden : (T.base.node x).isHidden = true
  · simp only [hhidden, if_true]
    have hclear := hres.goes (hT.clear hres hx) (zeroOut_moves _ (hT.admitted hres.moves hx.1))
    refine hT.weaken (hclear.with fun _ => rfl) ?_
    rintro a (ha | ha)
    · exact Or.inl (Or.inr ha)
    cases ha with
    | sized => exact Or.inl (Or.inl rfl)
    | based hf => simp [Node.isInFlow, hhidden] at hf
    | started | measured | cleared => exact Or.inr (by simp)
  simp only [hhidden, Bool.false_eq_true, if_false]
  have hstart := hT.placeAtStart hres hx
  generalize u.placeAtStart T.c x = v at hstart ⊢
  generalize u'.placeAtStart T.c' x = v' at hstart ⊢
  by_cases habs : (T.base.node x).isAbsolute = true
  · simp only [habs, if_true]
    refine hT.weaken (hstart.runs total') ?_
    rintro a (ha | ha)
    · exact Or.inl (Or.inr ha)
    cases ha with
    | sized => exact Or.inl (Or.inl rfl)
    | started hl => exact Or.inr ⟨hl, rfl⟩
    | based hf => simp [Node.isInFlow, habs] at hf
    | measured hh | cleared hh => exact absurd hh hhidden
  simp only [habs, Bool.false_eq_true, if_false]
  have hbasis := hT.prepareBasis hlone hstart hx (Or.inl (Or.inl rfl))
  refine hT.follow hbasis (.refl _) fun _ hs => ?_
  rw [Container.turn_mainAxis, Container.turn_innerWidth, (hT.kid hs hx).1.marginFor,
    hT.basis hs hx (Or.inl rfl)]
  refine hT.weaken (hs.runs _) ?_
  rintro a (ha | ha)
  · exact Or.inr (Or.inl (Or.inr ha))
  cases ha with
  | sized => exact Or.inr (Or.inl (Or.inl rfl))
  | started hl => exact Or.inr (Or.inr ⟨hl, rfl⟩)
  | based => exact Or.inl rfl
  | measured hh | cleared hh => exact absurd hh hhidden

theorem prepareChild_aside (lone : Option NodeId) {s : α × Pass α} (h : T.Sees K s.2 q)
    (hx : x ∈ T.kids) (hno : T.keeps x = false) :
    T.Runs K (Pass.prepareChild T.visit T.c lone s x).1 s.1
      (Pass.prepareChild T.visit T.c lone s x).2 q := by
  obtain ⟨total, p⟩ := s
  have hmoves := h.moves.trans (update_moves (f := Node.resolveSize) (Set.mem_univ x) fun _ => rfl)
  unfold Pass.prepareChild
  dsimp only at h ⊢
  rw [if_pos (hT.spared hmoves hx hno).1]
  exact (hT.aside h hx hno ((Does.works (P := Sole x) (.settle p x) rfl).trans
    (Does.works (.clear _ x _) rfl))).with fun _ => rfl

theorem basisOfChildren (h : T.Sees K p q) :
    T.Ends (K ∪ {a | ∃ x, T.Kid x ∧ T.Prepared x a}) (p.basisOfChildren T.visit T.c)
      (q.basisOfChildren T.visit' T.c') := by
  have hlone := fun x hx => hT.loneFlexible h (x := x) hx
  unfold Pass.basisOfChildren
  dsimp only
  rw [Container.turn_id, Container.turn_mainMode, hT.children h.moves, hT.children' h]
  refine hT.weaken (hT.foldl_filter Prod.snd Prod.fst T.Prepared (s := (0, p)) (t := (0, q)) h rfl
    (fun s x hx => prepareChild_works _ hx) T.keeps
    (fun s t x hx hk L _ hd hs => hT.prepareChild ?_ hs hd ⟨hx, hk⟩)
    fun s t x hx hno L hd hs => hd ▸ hT.prepareChild_aside _ hs hx hno) ?_
  · split
    · exact hlone x ⟨hx, hk⟩
    · rfl
  · rintro a (ha | ⟨x, hx, ha⟩)
    · exact Or.inl ha
    · exact Or.inr ⟨x, hx.1, hx.2, ha⟩

theorem collectLine (h : T.Sees K p q) (hxs : ∀ x ∈ xs, x ∈ T.kids)
    (hb : ∀ x ∈ xs, (T.base.node x).isInFlow = true → .based x ∈ K) (innerMain : Extent α)
    (number : Nat) :
    T.Runs (K ∪
        {a | ∃ x ∈ (collectLine T.c innerMain xs number p).1.items, a ∈ ({.lined x} : Set _)})
        (T.part xs (collectLine T.c innerMain xs number p).1)
        (collectLine T.c' innerMain (T.seen xs) number q).1
        (collectLine T.c innerMain xs number p).2
        (collectLine T.c' innerMain (T.seen xs) number q).2 ∧
      Line.Cut T.base.node xs (collectLine T.c innerMain xs number p).1 := by
  have hflow := fun x hx => (hT.kid_kind h.moves (hxs x hx)).2.2
  have hcut : Line.Cut T.base.node xs (Pass.collectLine T.c innerMain xs number p).1 :=
    (p.collectLine_cut T.c innerMain xs number).congr
      (fun x hx => (hflow x hx).symm) rfl rfl
  have hsame := Line.collect_turn (c := T.c) (fun x hx hk => (hT.kid h ⟨hxs x hx, hk⟩).1)
    (fun x hx hk hf => hT.basis h ⟨hxs x hx, hk⟩ (hb x hx (by rwa [← hflow x hx])))
    (fun x hx hno => (hT.spared h.moves (hxs x hx) hno).2)
    ((p.node T.c.id).style.flexWrap != .noWrap) T.c.ownerMain innerMain
  refine ⟨?_, hcut⟩
  unfold Pass.collectLine at hcut ⊢
  dsimp only at hcut ⊢
  rw [Container.turn_id, Container.turn_ownerMain, (hT.parent h).1.flexWrap, hsame]
  generalize Line.collect T.c _ T.c.ownerMain innerMain _ = line at hcut ⊢
  have hmem := fun x hx => hT.keeps_inFlow (hxs x (hcut.inFlow x hx).1) (hcut.inFlow x hx).2
  refine (hT.foldl (fun p => p) (fun _ => ()) (fun x => {.lined x}) h rfl (fun p x hx =>
    Does.works (.number p x number) (hmem x hx).1) fun p q x hx L _ _ hs => ?_).with fun _ => rfl
  rw [Set.union_singleton]
  exact (hs.on (hT.setLine hs (hmem x hx) number)
    (update_moves (Set.mem_univ x) fun _ => rfl)).runs ()

theorem layItem (innerMain : Extent α) (overflows : Bool) (space : Space α) {s t : α × Pass α}
    {item : FlexItem α} (h : T.Sees K s.2 t.2) (hd : t.1 = s.1) (hx : T.Kid item.id)
    (hs : .sized item.id ∈ K) :
    T.Ends (insert (.measured item.id) K) (layItem T.visit T.c innerMain overflows space s item)
      (layItem T.visit' T.c' innerMain overflows space t item) := by
  obtain ⟨taken, p⟩ := s
  obtain ⟨taken', q⟩ := t
  obtain rfl : taken' = taken := hd
  dsimp only at h
  have hp := (hT.parent h).1
  have hn := (hT.kid h hx).1
  have hsize := hT.size h hx hs
  unfold Pass.layItem
  dsimp only
  rw [Container.turn_id, hT.direction h, Container.stretchesChild_turn hp hn hsize,
    Container.crossOffer_turn hp hn hsize, Container.turn_mainAxis, Container.turn_crossAxis,
    Container.turn_innerWidth, Container.turn_innerCross, Container.turn_performLayout,
    hn.marginFor, hn.cap, hn.cap, Container.turn_request]
  generalize hr : T.c.request _ _ _ _ = r
  have hask := hT.asks h hx r (Or.inr (by rw [← hr]; rfl))
  exact hT.follow hask (heed_works hx.1) fun _ hu =>
    (hu.on (hT.heed hu hx) (updateGeometryIf_moves (Set.mem_univ _) _ _)).runs _

theorem flexLine (innerMain : Extent α) (overflows : Bool) (line : Line α) (length : Nat)
    (h : T.Sees K p q) (hi : ∀ x ∈ line.items, T.Kid x ∧ .sized x ∈ K ∧ .based x ∈ K) :
    T.Runs (K ∪ {a | ∃ x ∈ line.items, a = .measured x})
      ((p.flexLine T.visit T.c innerMain overflows line).1.spanning length)
      (q.flexLine T.visit' T.c' innerMain overflows (line.spanning length)).1
      (p.flexLine T.visit T.c innerMain overflows line).2
      (q.flexLine T.visit' T.c' innerMain overflows (line.spanning length)).2 := by
  have hitems : (line.items.map fun id => T.c'.flexItem innerMain id (q.node id)) =
      line.items.map fun id => T.c.flexItem innerMain id (p.node id) :=
    List.map_congr_left fun x hx => Container.flexItem_turn (hT.kid h (hi x hx).1).1
      (hT.basis h (hi x hx).1 (hi x hx).2.2) innerMain x
  have hids := frozenItems_ids T.c innerMain line p
  dsimp only [frozenItems] at hids
  unfold Pass.flexLine
  dsimp only [Line.spanning]
  rw [hitems]
  generalize freeze _ _ line.space 0 = frozen at hids ⊢
  have hmem : ∀ item ∈ frozen.items, item.id ∈ line.items := fun item hi =>
    hids ▸ List.mem_map_of_mem hi
  have hcount := h.on (hT.count h frozen.rounds) (count_moves fun _ => le_rfl)
  generalize p.count _ = u at hcount ⊢
  generalize q.count _ = u' at hcount ⊢
  refine (hT.weaken (hT.foldl Prod.snd Prod.fst
    (fun item : FlexItem α => {.measured item.id})
    (f := Pass.layItem T.visit T.c innerMain overflows frozen.space)
    (g := Pass.layItem T.visit' T.c' innerMain overflows frozen.space) (l := frozen.items)
    (s := (0, u)) (t := (0, u')) hcount rfl ?_ ?_) ?_).with fun htaken => by rw [htaken]
  · exact fun s item hitem =>
      (layItem_works innerMain overflows _ (hi _ (hmem item hitem)).1.1).about
  · intro s t item hitem L hL hd hs
    rw [Set.union_singleton]
    exact hT.layItem innerMain overflows frozen.space hs hd (hi _ (hmem item hitem)).1
      (hL (hi _ (hmem item hitem)).2.1)
  · rintro a (ha | ⟨x, hx, ha⟩)
    · exact Or.inl ha
    · rw [← hids] at hx
      obtain ⟨item, hitem, rfl⟩ := List.mem_map.mp hx
      exact Or.inr ⟨item, hitem, ha⟩

theorem flexCollected (plan : LinesPlan α) (innerMain : Extent α) {line : Line α} (length : Nat)
    (h : T.Sees K p q) (hi : ∀ x ∈ line.items, T.Kid x ∧ .sized x ∈ K ∧ .based x ∈ K) :
    T.Runs (K ∪ {a | T.c.skipsFlex = false ∧ ∃ x ∈ line.items, a = .measured x})
      ((flexCollected T.visit T.c plan innerMain line p).1.1.spanning length,
        (flexCollected T.visit T.c plan innerMain line p).1.2)
      (flexCollected T.visit' T.c' plan innerMain (line.spanning length) q).1
      (flexCollected T.visit T.c plan innerMain line p).2
      (flexCollected T.visit' T.c' plan innerMain (line.spanning length) q).2 := by
  have hconsumed : (line.spanning length).consumed = line.consumed := rfl
  unfold Pass.flexCollected
  rw [Container.turn_id, (hT.parent h).1.config, Container.turn_performLayout,
    Container.turn_crossMode, hconsumed]
  generalize Container.lineSpan plan innerMain line.consumed = span
  have hnote := h.noteIf (span.byContent && (p.node T.c.id).config.legacyStretch) (hT.legacy h)
  dsimp only
  generalize p.updateGeometryIf _ _ _ = u at hnote ⊢
  generalize q.updateGeometryIf _ _ _ = u' at hnote ⊢
  generalize Container.freeSpace span.innerMain _ _ = free
  have hend : ∀ {L u u'} {l l' : Line α}, T.Runs L (l.spanning length) l' u u' →
      T.Runs L (l.spanning length, span.innerMain) (l', span.innerMain)
      (u.updateGeometryIf (((u.node T.c.id).style.overflow != .visible) && l.space.free < 0)
        T.c.id fun g => { g with hadOverflow := true })
      (u'.updateGeometryIf (((u'.node T.c.id).style.overflow != .visible) && l'.space.free < 0)
        T.c.id fun g => { g with hadOverflow := true }) := by
    intro L u u' l l' hl
    refine hT.follow hl (overrun_works _ trivial) fun hd hs => ?_
    rw [hd, (hT.parent hs).1.overflow]
    exact (hs.noteIf _ (hT.overflow hs)).runs _
  by_cases hskip : (!T.c.performLayout && T.c.crossMode == .exactly) = true
  · simp only [hskip, if_true]
    refine hT.weaken (hend (hnote.runs _)) ?_
    rintro a (ha | ⟨hno, -⟩)
    · exact ha
    · simp [Container.skipsFlex, hskip] at hno
  · simp only [hskip, Bool.false_eq_true, if_false]
    refine hT.weaken (hend (hT.flexLine span.innerMain plan.overflows
      { line with space := { line.space with free := free } } length hnote hi)) ?_
    rintro a (ha | ⟨-, ha⟩)
    · exact Or.inl ha
    · exact Or.inr ha

theorem flexFront (plan : LinesPlan α) {s t : LinesState α} (h : T.Sees K s.pass t.pass)
    (hinner : t.innerMain = s.innerMain) (hcount : t.count = s.count) (hxs : ∀ x ∈ xs, x ∈ T.kids)
    (hK : ∀ x ∈ xs, T.keeps x = true → ∀ a, T.Prepared x a → a ∈ K) :
    T.Runs (K ∪ {a | ∃ x ∈ (flexFront T.visit T.c plan xs s).1.1.items, T.Flexed x a})
        (T.part xs (flexFront T.visit T.c plan xs s).1.1, (flexFront T.visit T.c plan xs s).1.2)
        (flexFront T.visit' T.c' plan (T.seen xs) t).1 (flexFront T.visit T.c plan xs s).2
        (flexFront T.visit' T.c' plan (T.seen xs) t).2 ∧
      Line.Cut T.base.node xs (flexFront T.visit T.c plan xs s).1.1 := by
  obtain ⟨hcol, hcut⟩ := hT.collectLine h hxs (fun x hx hf =>
    hK x hx (hT.keeps_inFlow (hxs x hx) hf).2 _ (.based hf)) s.innerMain s.count
  rw [flexFront_eq, flexFront_eq, hinner, hcount]
  obtain ⟨hitems, hlength⟩ := flexCollected_line T.visit T.c plan s.innerMain
    (Pass.collectLine T.c s.innerMain xs s.count s.pass).1
    (Pass.collectLine T.c s.innerMain xs s.count s.pass).2
  refine ⟨?_, hcut.congr (fun _ _ => rfl) hitems hlength⟩
  rw [hitems, Pairing.part, hlength]
  have hkid := fun x hx => hT.keeps_inFlow (hxs x (hcut.inFlow x hx).1) (hcut.inFlow x hx).2
  refine hT.follow hcol (flexCollected_works plan s.innerMain fun x hx => (hkid x hx).1).about
    fun hline hs => ?_
  rw [hline]
  refine hT.weaken (hT.flexCollected plan s.innerMain _ hs fun x hx => ⟨hkid x hx, ?_⟩) ?_
  · obtain ⟨hmem, hf⟩ := hcut.inFlow x hx
    have hK := hK x hmem (hkid x hx).2
    exact ⟨Or.inl (hK _ .sized), Or.inl (hK _ (.based hf))⟩
  · rintro a (ha | ⟨x, hx, ha⟩)
    · exact Or.inl (Or.inl ha)
    cases ha with
    | lined => exact Or.inl (Or.inr ⟨x, hx, rfl⟩)
    | measured hskip => exact Or.inr ⟨hskip, x, hx, rfl⟩

theorem shifts (h : T.Sees K p q) (hx : T.Kid x) (side : Side) (f : α → α) :
    T.Sees K (p.shiftBy x side f) (q.shiftBy x (side.turn T.e) f) :=
  h.on (hT.shift h hx side f) (shiftBy_moves (Set.mem_univ x) side f)

theorem places (h : T.Sees K p q) (hx : T.Kid x) (side : Side) (a : α) :
    T.Sees K (p.setPosition x side a) (q.setPosition x (side.turn T.e) a) :=
  hT.shifts h hx side fun _ => a

theorem ascentAndDescent (width : Extent α) (h : T.Sees K p q) (hx : T.Kid x)
    (hm : .measured x ∈ K)
    (hb : T.base.hasBaselineChildren T.c.id = true ∨ (T.base.node x).isInFlow = true ∧
      (T.base.node T.c.id).alignOf (T.base.node x) = .baseline) :
    T.Ends K (p.ascentAndDescent width x) (q.ascentAndDescent width x) := by
  obtain ⟨hn, hl⟩ := hT.kid h hx
  obtain ⟨hvalue, hholds⟩ := hT.baseline h hx hb
  have hmargin := hn.leadingMargin .column width
  rw [FlexDirection.turn_column] at hmargin
  unfold Pass.ascentAndDescent
  dsimp only
  simp only [hvalue, hmargin, hl.margins, Geometry.measuredSize, hT.measure h (Or.inr hx) hm]
  exact (h.on hholds (baselineWithin_moves _)).runs _

theorem placeAbsoluteMain (plan : JustifyPlan α) (h : T.Sees K p q) (hx : T.Kid x) :
    T.Sees K (p.placeAbsoluteMain T.c plan x) (q.placeAbsoluteMain T.c' plan x) := by
  have hn := (hT.kid h hx).1
  unfold Pass.placeAbsoluteMain
  dsimp only
  rw [Container.turn_mainAxis, Container.turn_performLayout, Container.turn_innerWidth,
    hn.hasLeadingInset, hn.leadingPosition, hn.leadingMargin, FlexDirection.turn_leading]
  split
  · exact h
  split
  · exact hT.places h hx _ _
  · exact hT.shifts h hx _ _

section

variable {plan : JustifyPlan α} {s t : JustifyState α} (hskip : plan.skipsFlex = T.c.skipsFlex)
  (hline : plan.onBaseline = T.base.hasBaselineChildren T.c.id) (h : T.Sees K s.pass t.pass)
  (hd : t.sums = s.sums) (hx : T.Kid x)

include hskip hline h hd hx

theorem placeItemMain (hb : .based x ∈ K) (hm : T.c.skipsFlex = false → .measured x ∈ K) :
    T.Runs K (placeItemMain T.c plan s x).sums (placeItemMain T.c' plan t x).sums
      (placeItemMain T.c plan s x).pass (placeItemMain T.c' plan t x).pass := by
  obtain ⟨main, cross, ascent, descent, p⟩ := s
  obtain ⟨main', cross', ascent', descent', q⟩ := t
  simp only [JustifyState.sums, Prod.mk.injEq] at hd
  obtain ⟨rfl, rfl, rfl, rfl⟩ := hd
  dsimp only at h
  have hn := (hT.kid h hx).1
  unfold Pass.placeItemMain
  dsimp only
  rw [Container.turn_mainAxis, Container.turn_crossAxis, Container.turn_performLayout,
    Container.turn_innerWidth, Container.turn_innerCross, hn.leadingMarginValue,
    hn.trailingMarginValue, hn.marginFor, FlexDirection.turn_leading, hT.basis h hx hb, hskip]
  have hshift : ∀ f : α → α, T.Sees K
      (if T.c.performLayout then p.shiftBy x T.c.mainAxis.leading f else p)
      (if T.c.performLayout then q.shiftBy x (T.c.mainAxis.leading.turn T.e) f else q) := by
    intro f
    split
    · exact hT.shifts h hx _ f
    · exact h
  cases hflex : T.c.skipsFlex with
  | true => exact (hshift _).runs _
  | false =>
    have hm := hm hflex
    have hmeasured := hT.measure h (Or.inr hx) hm
    simp only [Bool.false_eq_true, if_false]
    rw [hn.outerSize _ hmeasured, hn.outerSize _ hmeasured]
    split
    · rename_i honline
      rw [hline] at honline
      refine (hT.ascentAndDescent T.c.innerWidth (hshift _) hx hm (Or.inl honline)).with
        fun he => ?_
      simp only [JustifyState.sums, he]
    · exact (hshift _).runs _

theorem placeChildMain
    (hb : (T.base.node x).isInFlow = true → .based x ∈ K)
    (hm : (T.base.node x).isInFlow = true → T.c.skipsFlex = false → .measured x ∈ K) :
    T.Runs K (placeChildMain T.c plan s x).sums (placeChildMain T.c' plan t x).sums
      (placeChildMain T.c plan s x).pass (placeChildMain T.c' plan t x).pass := by
  unfold Pass.placeChildMain
  dsimp only
  rw [(hT.isHidden h hx).1, (hT.isHidden h hx).2, (hT.isAbsolute h hx).1, (hT.isAbsolute h hx).2]
  by_cases hhidden : (T.base.node x).isHidden = true
  · simp only [hhidden, if_true]
    exact ⟨h.moves, Or.inr ⟨hd, h.holds⟩⟩
  by_cases habs : (T.base.node x).isAbsolute = true
  · simp only [hhidden, habs, Bool.false_eq_true, if_false, if_true]
    exact ((hT.placeAbsoluteMain plan h hx).runs ()).with fun _ => hd
  simp only [hhidden, habs, Bool.false_eq_true, if_false]
  have hflow : (T.base.node x).isInFlow = true := by simp [Node.isInFlow, hhidden, habs]
  exact hT.placeItemMain hskip hline h hd hx (hb hflow) (hm hflow)

end

theorem justifyLine (mainMode : MeasureMode) (innerMain : Extent α) (line : Line α) (length : Nat)
    (h : T.Sees K p q) (hxs : ∀ x ∈ xs, x ∈ T.kids)
    (hb : ∀ x ∈ xs, (T.base.node x).isInFlow = true → .based x ∈ K)
    (hm : ∀ x ∈ xs, (T.base.node x).isInFlow = true → T.c.skipsFlex = false → .measured x ∈ K) :
    T.Runs K ((p.justifyLine T.c mainMode innerMain xs line).1.spanning length)
      (q.justifyLine T.c' mainMode innerMain (T.seen xs) (line.spanning length)).1
      (p.justifyLine T.c mainMode innerMain xs line).2
      (q.justifyLine T.c' mainMode innerMain (T.seen xs) (line.spanning length)).2 := by
  have hp := (hT.parent h).1
  have hmargins : T.c'.autoMargins ((T.seen xs).map q.node) = T.c.autoMargins (xs.map p.node) := by
    refine Container.autoMargins_turn (fun x hx hk => (hT.kid h ⟨hxs x hx, hk⟩).1)
      fun x hx hno => ?_
    have hstyle := hT.kid_style h.moves (hxs x hx)
    rw [Node.isAbsolute, Node.hasAutoMargin, Node.leadingMarginValue, Node.trailingMarginValue,
      hstyle]
    exact (hT.spares (hxs x hx) hno).margins
  unfold Pass.justifyLine
  dsimp only [Line.spanning]
  rw [Container.turn_id, Container.spaceToSpread_turn hp, hmargins, hp.justifyContent,
    Container.turn_mainAxis, Container.turn_ownerWidth, hp.leadingBorder, hp.leadingFrame,
    hp.trailingFrame, (hT.hasBaselineChildren h).1, (hT.hasBaselineChildren h).2,
    Container.turn_performLayout, Container.turn_crossMode]
  refine (hT.weaken (hT.foldl_filter JustifyState.pass JustifyState.sums (fun _ => ∅) (l := xs)
    (f := Pass.placeChildMain T.c _) (g := Pass.placeChildMain T.c' _) (s := ⟨_, 0, 0, 0, p⟩)
    (t := ⟨_, 0, 0, 0, q⟩) h rfl (fun _ x hx => placeChildMain_works _ (hxs x hx) trivial)
    T.keeps (fun s t x hx hk L hL hd hs => ?_) fun s t x hx hno L hd hs => ?_)
    fun a ha => Or.inl ha).with fun hsums => ?_
  · rw [Set.union_empty]
    exact hT.placeChildMain rfl rfl hs hd ⟨hxs x hx, hk⟩ (fun hf => hL (hb x hx hf))
      fun hf hskip => hL (hm x hx hf hskip)
  · rw [Pass.placeChildMain, if_pos (hT.spared hs.moves (hxs x hx) hno).1]
    exact ⟨hs.moves, Or.inr ⟨hd, hs.holds⟩⟩
  · simp only [JustifyState.sums, Prod.mk.injEq] at hsums
    rw [hsums.1, hsums.2.1, hsums.2.2.1, hsums.2.2.2]

end Tandem

end Flexbox
