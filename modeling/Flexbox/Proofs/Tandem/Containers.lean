import Flexbox.Proofs.Tandem.Aligning

namespace Flexbox

variable {α : Type}

open Pass

def LinesState.sums {α : Type} (s : LinesState α) : Extent α × Nat × α × α :=
  (s.innerMain, s.count, s.totalCross, s.maxMain)

theorem Pass.setTrailings_eq {α : Type} [Scalar α] (c : Container α) (p : Pass α) :
    p.setTrailings c = (p.children c.id).foldl (fun p child =>
      if (p.node child).isHidden then p
      else
        let p := if c.mainAxis.isReverse then p.setTrailing c c.mainAxis child else p
        if c.crossAxis.isReverse then p.setTrailing c c.crossAxis child else p) p := by
  unfold setTrailings
  split
  · rfl
  · rename_i hno
    simp only [Bool.or_eq_true, not_or] at hno
    simp only [hno.1, hno.2, Bool.false_eq_true, if_false, ite_self]
    rw [List.foldl_fixed]

theorem Pass.layLines_more {α : Type} [Scalar α] {visit : Visitor α} {c : Container α}
    {plan : LinesPlan α} {fuel : Nat} {xs : List NodeId} {s : LinesState α} (hne : xs ≠ []) :
    layLines visit c plan (fuel + 1) xs s =
      layLines visit c plan fuel (xs.drop (layLine visit c plan xs s).1)
        (layLine visit c plan xs s).2 := by
  cases xs with
  | nil => exact absurd rfl hne
  | cons x xs => rfl

namespace Pairing

variable (T : Pairing α)

/-- What is known of a child once its line is laid out in full. -/
inductive Placed (x : NodeId) : Fact → Prop
  | lined : (T.base.node x).isInFlow = true → Placed x (.lined x)
  | measured : (T.base.node x).isInFlow = true → Placed x (.measured x)

/-- What is known once the container is laid out. -/
inductive Finished : Fact → Prop
  | sized : Finished (.measured T.c.id)
  | started {x : NodeId} : T.c.performLayout = true → T.Kid x → Finished (.started x)
  | measured {x : NodeId} : T.c.performLayout = true → T.Kid x → Finished (.measured x)
  | cleared {x : NodeId} : T.Kid x → (T.base.node x).isHidden = true → Finished (.cleared x)

end Pairing

namespace Tandem

variable [Scalar α] {T : Pairing α} (hT : Tandem T) {K : Set Fact} {p q : Pass α}
  {x : NodeId} {xs : List NodeId} {s t : LinesState α}

include hT

theorem placeFlexed (plan : LinesPlan α) {line : Line α} (innerMain : Extent α)
    (h : T.Sees K p q) (hd : t.sums = s.sums) (hxs : ∀ x ∈ xs, x ∈ T.kids)
    (hK : ∀ x ∈ xs, T.keeps x = true → ∀ a, T.Prepared x a → a ∈ K)
    (hcut : Line.Cut T.base.node xs line) (hf : ∀ x ∈ line.items, ∀ a, T.Flexed x a → a ∈ K) :
    T.Runs (K ∪ {a | T.c.performLayout = true ∧ ∃ x ∈ xs.take line.length, T.Placed x a})
      ((T.part xs line).length, (placeFlexed T.visit T.c plan xs s line innerMain p).2.sums)
      ((placeFlexed T.visit' T.c' plan (T.seen xs) t (T.part xs line) innerMain q).1,
        (placeFlexed T.visit' T.c' plan (T.seen xs) t (T.part xs line) innerMain q).2.sums)
      (placeFlexed T.visit T.c plan xs s line innerMain p).2.pass
      (placeFlexed T.visit' T.c' plan (T.seen xs) t (T.part xs line) innerMain q).2.pass := by
  simp only [LinesState.sums, Prod.mk.injEq] at hd
  obtain ⟨-, hcount, htotal, hmain⟩ := hd
  have htake := fun x hx => hxs x (List.mem_of_mem_take (i := line.length) hx)
  have hprep := fun x hx => hK x (List.mem_of_mem_take (i := line.length) hx)
  have hflex := fun x hx hflow => hf x (hcut.taken x hx hflow)
  have hjust := hT.justifyLine plan.mainMode innerMain line
    (T.seen (xs.take line.length)).length h htake
    (fun x hx hflow => hprep x hx (hT.keeps_inFlow (htake x hx) hflow).2 _ (.based hflow))
    fun x hx hflow hskip => hflex x hx hflow _ (.measured hskip)
  rw [show line.spanning (T.seen (xs.take line.length)).length = T.part xs line from rfl] at hjust
  have hfront : (T.seen xs).take (T.part xs line).length = T.seen (xs.take line.length) :=
    T.take_seen xs line.length
  unfold Pass.placeFlexed
  dsimp only [LinesState.sums]
  rw [hfront]
  generalize p.justifyLine T.c plan.mainMode innerMain _ line = justified at hjust ⊢
  generalize q.justifyLine T.c' plan.mainMode innerMain _ (T.part xs line) = justified' at hjust ⊢
  obtain ⟨line₁, u⟩ := justified
  obtain ⟨line₂, u'⟩ := justified'
  dsimp only at hjust ⊢
  refine hT.follow hjust (ite_works (alignLine_works _ htake).about (.refl _)) fun he hu => ?_
  subst he
  have hp := (hT.parent hu).1
  rw [Container.turn_id, Container.boundCross_turn hp, Container.boundCross_turn hp, hp.flexWrap,
    Container.turn_crossMode, Container.turn_innerCross, Container.turn_performLayout, hcount,
    htotal, hmain]
  by_cases hl : T.c.performLayout = true
  · have hskip : T.c.skipsFlex = false := by simp [Container.skipsFlex, hl]
    simp only [hl, if_true]
    refine (hT.weaken (hT.alignLine _ hu htake (fun x hx hk => hprep x hx hk _ .sized)
      fun x hx hflow => hflex x hx hflow _ (.measured hskip)) ?_).with fun _ => rfl
    rintro a (ha | ⟨-, x, hx, ha⟩)
    · exact ha
    cases ha with
    | lined hflow => exact hflex x hx hflow _ .lined
    | measured hflow => exact hflex x hx hflow _ (.measured hskip)
  · simp only [hl, Bool.false_eq_true, if_false]
    exact hT.weaken (hu.runs _) (by simp)

theorem layLine (plan : LinesPlan α) (h : T.Sees K s.pass t.pass) (hd : t.sums = s.sums)
    (hxs : ∀ x ∈ xs, x ∈ T.kids) (hK : ∀ x ∈ xs, T.keeps x = true → ∀ a, T.Prepared x a → a ∈ K) :
    ∃ line : Line α, line.length = (layLine T.visit T.c plan xs s).1 ∧
      Line.Cut T.base.node xs line ∧
      T.Runs (K ∪ {a | T.c.performLayout = true ∧ ∃ x ∈ xs.take line.length, T.Placed x a})
        ((T.part xs line).length, (layLine T.visit T.c plan xs s).2.sums)
        ((layLine T.visit' T.c' plan (T.seen xs) t).1,
          (layLine T.visit' T.c' plan (T.seen xs) t).2.sums)
        (layLine T.visit T.c plan xs s).2.pass
        (layLine T.visit' T.c' plan (T.seen xs) t).2.pass := by
  have hsums := hd
  simp only [LinesState.sums, Prod.mk.injEq] at hsums
  obtain ⟨hfront, hcut⟩ := hT.flexFront plan h hsums.1 hsums.2.1 hxs hK
  rw [layLine_eq, layLine_eq]
  refine ⟨(Pass.flexFront T.visit T.c plan xs s).1.1, rfl, hcut,
    hT.follow hfront (placeFlexed_works plan s _ _ fun x hx =>
      hxs x (List.mem_of_mem_take hx)).about fun hline hu => ?_⟩
  rw [hline]
  refine hT.weaken (hT.placeFlexed plan _ hu hd hxs
    (fun x hx hk a ha => Or.inl (hK x hx hk a ha)) hcut fun x hx a ha => Or.inr ⟨x, hx, ha⟩) ?_
  rintro a (ha | ha)
  · exact Or.inl (Or.inl ha)
  · exact Or.inr ha

theorem layLines (plan : LinesPlan α) {fuel fuel' : Nat} (h : T.Sees K s.pass t.pass)
    (hd : t.sums = s.sums) (hfuel : xs.length ≤ fuel) (hfuel' : (T.seen xs).length ≤ fuel')
    (hrest : T.seen xs = [] → xs = []) (hxs : ∀ x ∈ xs, x ∈ T.kids)
    (hK : ∀ x ∈ xs, T.keeps x = true → ∀ a, T.Prepared x a → a ∈ K) :
    T.Runs (K ∪ {a | T.c.performLayout = true ∧ ∃ x ∈ xs, T.Placed x a})
      (layLines T.visit T.c plan fuel xs s).sums
      (layLines T.visit' T.c' plan fuel' (T.seen xs) t).sums
      (layLines T.visit T.c plan fuel xs s).pass
      (layLines T.visit' T.c' plan fuel' (T.seen xs) t).pass := by
  have hstop : T.Runs (K ∪ {a | T.c.performLayout = true ∧ ∃ x ∈ [], T.Placed x a}) s.sums t.sums
      s.pass t.pass := hT.weaken ⟨h.moves, Or.inr ⟨hd, h.holds⟩⟩ (by simp)
  induction fuel generalizing fuel' xs s t K with
  | zero =>
    obtain rfl := List.length_eq_zero_iff.mp (Nat.le_zero.mp hfuel)
    cases fuel' <;> exact hstop
  | succ fuel ih =>
    by_cases hnone : xs = []
    · subst hnone
      cases fuel' <;> exact hstop
    obtain ⟨line, hlength, hcut, hline⟩ := hT.layLine plan h hd hxs hK
    have hpos := hcut.progress hnone
    have hflow := fun x hx hf => (hT.keeps_inFlow (hxs x hx) hf).2
    have hpos' := hcut.some_left hflow (mt hrest hnone)
    obtain ⟨fuel', rfl⟩ : ∃ k, fuel' = k + 1 := by
      have := List.length_pos_iff.mpr (mt hrest hnone)
      exact ⟨fuel' - 1, by omega⟩
    rw [layLines_more hnone, layLines_more (mt hrest hnone), ← hlength]
    generalize Pass.layLine T.visit T.c plan xs s = r at hline ⊢
    generalize Pass.layLine T.visit' T.c' plan (T.seen xs) t = r' at hline ⊢
    obtain ⟨_, s⟩ := r
    obtain ⟨length', t⟩ := r'
    dsimp only at hline ⊢
    have hdrop := fun x hx => hxs x (List.mem_of_mem_drop (i := line.length) hx)
    refine hT.follow hline (layLines_works plan fuel hdrop) fun hsame hu => ?_
    obtain ⟨rfl, hsums⟩ := Prod.mk.inj hsame
    have hleft : (T.seen xs).drop (T.part xs line).length = T.seen (xs.drop line.length) :=
      T.drop_seen xs line.length
    have hshort' : (T.seen (xs.drop line.length)).length ≤ fuel' := by
      rw [← hleft, List.length_drop]
      have : 0 < (T.part xs line).length := hpos'
      omega
    rw [hleft]
    refine hT.weaken (ih hu hsums (by rw [List.length_drop]; omega) hshort'
      (hcut.exhausted hflow) hdrop
      (fun x hx hk a ha => Or.inl (hK x (List.mem_of_mem_drop hx) hk a ha))
      (hT.weaken ⟨hu.moves, Or.inr ⟨hsums, hu.holds⟩⟩ (by simp))) ?_
    rintro a (ha | ⟨hl, x, hx, ha⟩)
    · exact Or.inl (Or.inl ha)
    rw [← List.take_append_drop line.length xs] at hx
    rcases List.mem_append.mp hx with hx | hx
    · exact Or.inl (Or.inr ⟨hl, x, hx, ha⟩)
    · exact Or.inr ⟨hl, x, hx, ha⟩

theorem spreadLines (leadingFrame : α) (h : T.Sees K s.pass t.pass) (hd : t.sums = s.sums)
    (hs : ∀ x, T.Kid x → .sized x ∈ K)
    (hK : T.c.performLayout = true → ∀ x ∈ T.kids, ∀ a, T.Placed x a → a ∈ K) :
    T.Goes K (spreadLines T.visit T.c leadingFrame s)
      (spreadLines T.visit' T.c' leadingFrame t) := by
  simp only [LinesState.sums, Prod.mk.injEq] at hd
  obtain ⟨-, hcount, htotal, -⟩ := hd
  unfold Pass.spreadLines
  rw [Container.turn_id, Container.turn_performLayout, (hT.hasBaselineChildren h).1,
    (hT.hasBaselineChildren h).2, hcount, htotal]
  split
  · rename_i hlines
    have hK := hK (Bool.and_eq_true_iff.mp hlines).1
    exact hT.alignContent _ _ _ h hs fun x hx hf =>
      ⟨hK x hx _ (.lined hf), hK x hx _ (.measured hf)⟩
  · exact h.runs ()

theorem reverseLines (crossSize : α) (h : T.Sees K p q)
    (hm : ∀ x, T.Kid x → (T.base.node x).isAbsolute = false → .measured x ∈ K) :
    T.Goes K (p.reverseLines T.c crossSize) (q.reverseLines T.c' crossSize) := by
  unfold Pass.reverseLines
  rw [Container.turn_id, hT.children h.moves, hT.children' h]
  refine hT.walk h (fun u x hx => ite_works (shiftBy_works _ _ hx) (.refl u))
    (fun u u' x hx hk L hL hu => ?_) fun u u' x hx hno L hu =>
      hT.aside hu hx hno (ite_works (shiftBy_works _ _ rfl) (.refl u))
  have hx : T.Kid x := ⟨hx, hk⟩
  dsimp only
  rw [(hT.kid hu hx).1.positionType]
  split
  · rename_i hrel
    rw [hT.kid_style hu.moves hx.1] at hrel
    have habs : (T.base.node x).isAbsolute = false := by
      unfold Node.isAbsolute
      rw [eq_of_beq hrel]
      rfl
    rw [Container.turn_crossAxis,
      Node.measuredSize_turn (hT.measure hu (Or.inr hx) (hL (hm x hx habs))),
      FlexDirection.turn_leading]
    exact (hT.shifts hu hx _ _).runs ()
  · exact hu.runs ()

theorem setTrailings (h : T.Sees K p q) (hz : .measured T.c.id ∈ K)
    (hK : ∀ x, T.Kid x → .started x ∈ K ∧ .measured x ∈ K) :
    T.Goes K (p.setTrailings T.c) (q.setTrailings T.c') := by
  have hworks : ∀ (u : Pass α) axis, ∀ x ∈ T.kids,
      T.Works u (if FlexDirection.isReverse axis then u.setTrailing T.c axis x else u) :=
    fun u _ x hx => ite_works (setPosition_works _ _ hx) (.refl u)
  rw [setTrailings_eq, setTrailings_eq, Container.turn_id, hT.children h.moves, hT.children' h]
  refine hT.walk h (fun u x hx => ite_works (.refl u) ((hworks u _ x hx).trans (hworks _ _ x hx)))
    (fun u u' x hx hk L hL hu => ?_) fun u u' x hx hno L hu => ?_
  · have hx : T.Kid x := ⟨hx, hk⟩
    dsimp only
    rw [(hT.kid hu hx).1.isHidden, Container.turn_mainAxis, Container.turn_crossAxis]
    split
    · exact hu.runs ()
    obtain ⟨hstart, hm⟩ := hK x hx
    have hmain := hu.on (hT.setTrailing hu hx (Or.inl rfl) (hL hstart) (hL hm) (hL hz))
      (hT.moves hu.moves (hworks u _ x hx.1))
    exact (hmain.on (hT.setTrailing hmain hx (Or.inr rfl) (hL hstart) (hL hm) (hL hz))
      (hT.moves hmain.moves (hworks _ _ x hx.1))).runs ()
  · rw [if_pos (hT.spared hu.moves hx hno).1]
    exact hu.runs ()

theorem layAbsolutes (widthMode : MeasureMode) (h : T.Sees K p q) (hz : .measured T.c.id ∈ K)
    (hs : ∀ x, T.Kid x → .sized x ∈ K) {f g : Pass α → NodeId → Pass α}
    (hf : f = fun p x =>
      if (p.node x).isAbsolute then p.layAbsolute T.visit T.c widthMode x else p)
    (hg : g = fun p x =>
      if (p.node x).isAbsolute then p.layAbsolute T.visit' T.c' widthMode x else p) :
    T.Goes (K ∪ {a | ∃ x, T.Kid x ∧ (T.base.node x).isAbsolute = true ∧ a = .measured x})
      (T.kids.foldl f p) ((T.seen T.kids).foldl g q) := by
  subst hf hg
  refine hT.weaken (hT.foldl_filter (fun p => p) (fun _ => ())
    (fun x => {a | (T.base.node x).isAbsolute = true ∧ a = .measured x}) h rfl
    (fun u x hx => ite_works (layAbsolute_works _ hx fun _ => hx) (.refl u)) T.keeps
    (fun u u' x hx hk L hL _ hu => ?_) fun u u' x hx hno L _ hu =>
      hT.aside hu hx hno (ite_works (layAbsolute_works _ rfl fun _ => rfl) (.refl u))) ?_
  · have hx : T.Kid x := ⟨hx, hk⟩
    rw [(hT.isAbsolute hu hx).1, (hT.isAbsolute hu hx).2]
    by_cases habs : (T.base.node x).isAbsolute = true
    · simp only [habs, if_true]
      refine hT.weaken (hT.layAbsolute widthMode hu hx (hL (hs x hx)) (hL hz)) ?_
      rintro a (ha | ⟨-, rfl⟩)
      · exact Or.inr ha
      · exact Or.inl rfl
    · simp only [habs, Bool.false_eq_true, if_false]
      exact hT.weaken (hu.runs ()) (by simp)
  · rintro a (ha | ⟨x, hx, ha⟩)
    · exact Or.inl ha
    · exact Or.inr ⟨x, hx.1, hx.2, ha⟩

theorem placeRest (mainMode : MeasureMode) (crossSize : α) (hlay : T.c.performLayout = true)
    (h : T.Sees K p q) (hz : .measured T.c.id ∈ K)
    (hK : ∀ x, T.Kid x → ∀ a, T.Prepared x a ∨ T.Placed x a → a ∈ K) :
    T.Goes {a | T.Finished a} (p.placeRest T.visit T.c mainMode crossSize)
      (q.placeRest T.visit' T.c' mainMode crossSize) := by
  -- Each child has its last size as absolute, as hidden or from its line.
  have hsettled : ∀ x, T.Kid x → (T.base.node x).isAbsolute = false → .measured x ∈ K := by
    intro x hx habs
    by_cases hhidden : (T.base.node x).isHidden = true
    · exact hK x hx _ (Or.inl (.measured hhidden))
    · exact hK x hx _ (Or.inr (.measured (by simp [Node.isInFlow, hhidden, habs])))
  have hrev : T.Goes K
      (if (p.node T.c.id).style.flexWrap == .wrapReverse then p.reverseLines T.c crossSize else p)
      (if (p.node T.c.id).style.flexWrap == .wrapReverse then q.reverseLines T.c' crossSize
        else q) := by
    split
    · exact hT.reverseLines crossSize h hsettled
    · exact h.runs ()
  unfold Pass.placeRest
  dsimp only
  rw [Container.turn_id, (hT.parent h).1.flexWrap, Container.turn_isRow, Container.turn_crossMode]
  generalize (if (p.node T.c.id).style.flexWrap == .wrapReverse then
    p.reverseLines T.c crossSize else p) = u at hrev ⊢
  generalize (if (p.node T.c.id).style.flexWrap == .wrapReverse then
    q.reverseLines T.c' crossSize else q) = u' at hrev ⊢
  generalize (if T.c.isRow then mainMode else T.c.crossMode) = widthMode
  rw [hT.children hrev.moves]
  have habs : T.Works u (T.kids.foldl (fun p x =>
      if (p.node x).isAbsolute then p.layAbsolute T.visit T.c widthMode x else p) u) :=
    foldl_works (fun p => p) _ fun r x hx _ =>
      ite_works (layAbsolute_works _ hx fun _ => hx) (.refl r)
  have htrail := hT.chores (hrev.moves.trans (hT.moves hrev.moves habs))
    (setTrailings_works fun _ hx => hx)
  refine hT.follow hrev (habs.trans htrail) fun _ hu => ?_
  rw [hT.children' hu]
  refine hT.follow (hT.layAbsolutes widthMode hu hz (fun x hx => hK x hx _ (Or.inl .sized)) rfl rfl)
    htrail fun _ hw => ?_
  have hmeasured : ∀ x, T.Kid x → .measured x ∈ K ∪ {a | ∃ x, T.Kid x ∧
      (T.base.node x).isAbsolute = true ∧ a = .measured x} := by
    intro x hx
    by_cases habs : (T.base.node x).isAbsolute = true
    · exact Or.inr ⟨x, hx, habs, rfl⟩
    · exact Or.inl (hsettled x hx (by simpa using habs))
  refine hT.weaken (hT.setTrailings hw (Or.inl hz) fun x hx =>
    ⟨Or.inl (hK x hx _ (Or.inl (.started hlay))), hmeasured x hx⟩) ?_
  intro a ha
  cases ha with
  | sized => exact Or.inl hz
  | started _ hx => exact Or.inl (hK _ hx _ (Or.inl (.started hlay)))
  | measured _ hx => exact hmeasured _ hx
  | cleared hx hh => exact Or.inl (hK _ hx _ (Or.inl (.cleared hh)))

theorem layLinesAndSize (plan : LinesPlan α) (r : Request α) (h : T.Sees K p q)
    (hK : ∀ x, T.Kid x → ∀ a, T.Prepared x a → a ∈ K) :
    T.Goes {a | T.Finished a} (p.layLinesAndSize T.visit T.c plan r)
      (q.layLinesAndSize T.visit' T.c' plan (r.turn T.e)) := by
  have hnone : T.seen T.kids = [] → T.kids = [] := by
    intro hnone
    rcases hT.whole with ⟨y, hy⟩ | hall
    · exact absurd hnone hy.others
    · rwa [Pairing.seen, List.filter_eq_self.mpr hall] at hnone
  have hlines := hT.layLines plan (s := ⟨T.c.innerMain, 0, 0, 0, p⟩)
    (t := ⟨T.c.innerMain, 0, 0, 0, q⟩) h rfl le_rfl le_rfl hnone (fun _ hx => hx)
    fun x hx hk => hK x ⟨hx, hk⟩
  unfold Pass.layLinesAndSize
  dsimp only
  rw [Container.turn_id, Container.turn_innerMain, hT.children h.moves, hT.children' h]
  generalize Pass.layLines T.visit T.c plan _ _ _ = s at hlines ⊢
  generalize Pass.layLines T.visit' T.c' plan _ _ _ = t at hlines ⊢
  have hif : ∀ (row : Bool) (q : Pass α) (main cross : α),
      (if row then q.setMeasured T.c.id main cross else q.setMeasured T.c.id cross main) =
        q.setMeasured T.c.id (if row then main else cross) (if row then cross else main) :=
    fun row q main cross => by split <;> rfl
  have hrest : ∀ {u : Pass α} (width height cross : α), Moves Set.univ T.base u → T.Works u
      (if T.c.performLayout then
        (u.setMeasured T.c.id width height).placeRest T.visit T.c plan.mainMode cross
      else u.setMeasured T.c.id width height) := by
    intro u width height cross hu
    have hset : T.Works u (u.setMeasured T.c.id width height) :=
      Does.works (.note u (fun _ => ⟨rfl, rfl, rfl⟩) fun _ h => h) trivial
    exact ite_works (hset.trans (hT.labors (hu.trans (hT.moves hu hset)) (placeRest_labors
      (P := fun _ => True) _ _ (fun _ => trivial) fun _ _ => trivial))) hset
  rw [hif, hif]
  have hspread := hT.chores hlines.moves (spreadLines_works plan.leadingFrameCross).about
  refine hT.follow hlines (hspread.trans (hrest _ _ _
    (hlines.moves.trans (hT.moves hlines.moves hspread)))) fun hsums hs => ?_
  have hspread := hT.spreadLines plan.leadingFrameCross hs hsums
    (fun x hx => Or.inl (hK x hx _ .sized)) fun hl x hx a ha => Or.inr ⟨hl, x, hx, ha⟩
  generalize Pass.spreadLines T.visit T.c plan.leadingFrameCross s = u at hspread ⊢
  generalize Pass.spreadLines T.visit' T.c' plan.leadingFrameCross t = u' at hspread ⊢
  refine hT.follow hspread (hrest _ _ _ hspread.moves) fun _ hu => ?_
  simp only [LinesState.sums, Prod.mk.injEq] at hsums
  rw [Container.turn_isRow, Container.turn_performLayout,
    Container.finalSizes_turn (hT.parent hu).1 (hT.parent hu).2, hsums.1, hsums.2.2.1, hsums.2.2.2]
  have hset := fun width height => hu.on (hT.setMeasured hu width height)
    (setMeasured_moves (Set.mem_univ T.c.id) width height)
  split
  · rename_i hl
    refine hT.placeRest plan.mainMode _ hl (hset _ _) (Or.inl rfl) ?_
    rintro x hx a (ha | ha)
    · exact Or.inr (Or.inl (hK x hx a ha))
    · exact Or.inr (Or.inr ⟨hl, x, hx.1, ha⟩)
  · rename_i hl
    refine hT.weaken ((hset _ _).runs ()) fun a ha => ?_
    cases ha with
    | sized => exact Or.inl rfl
    | started hno | measured hno => exact absurd hno hl
    | cleared hx hh => exact Or.inr (Or.inl (hK _ hx _ (.cleared hh)))

/-- From the children's bases to the size of the container. -/
theorem layContent (r : Request α) (h : T.Sees ∅ T.base q) :
    T.Goes {a | T.Finished a}
      ((T.base.basisOfChildren T.visit T.c).2.layLinesAndSize T.visit T.c
        (T.c.linesPlan (T.base.node T.c.id) (T.base.basisOfChildren T.visit T.c).1) r)
      ((q.basisOfChildren T.visit' T.c').2.layLinesAndSize T.visit' T.c'
        (T.c'.linesPlan (q.node T.c.id) (q.basisOfChildren T.visit' T.c').1) (r.turn T.e)) := by
  have hbasis := hT.basisOfChildren h
  refine hT.follow hbasis (hT.labors hbasis.moves (layLinesAndSize_labors _ _)) fun htotal hs => ?_
  rw [htotal, Container.linesPlan_turn (hT.parent h).1]
  exact hT.layLinesAndSize _ r hs fun x hx a ha => Or.inr ⟨x, hx, ha⟩

end Tandem

end Flexbox
