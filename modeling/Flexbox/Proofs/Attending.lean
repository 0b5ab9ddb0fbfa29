import Flexbox.Proofs.Neighbors

namespace Flexbox

theorem Container.stretchesChild_role {α : Type} [Scalar α] (c : Container α) {n n' m m' : Node α}
    (hn : n.Kin n') (hm : m.SameRole m') : c.stretchesChild n' m' = c.stretchesChild n m := by
  rw [hn, hm]
  rfl

/-- A walk that comes by an element makes `J` of `I`, and elsewhere it keeps both. -/
theorem foldl_turns {σ γ : Type} {f : σ → γ → σ} {I J : σ → Prop} {l : List γ} {s : σ}
    (hit : γ → Prop) (hJ : ∀ s, J s → I s) (hhit : ∀ s, ∀ y ∈ l, hit y → I s → J (f s y))
    (hmiss : ∀ s, ∀ y ∈ l, ¬ hit y → (I s → I (f s y)) ∧ (J s → J (f s y))) (hs : I s)
    (hl : (∃ y ∈ l, hit y) ∨ J s) : J (l.foldl f s) := by
  induction l generalizing s with
  | nil => exact hl.resolve_left (by simp)
  | cons y l ih =>
    have ih := fun {s} => ih (s := s) (fun s z hz => hhit s z (by simp [hz]))
      fun s z hz => hmiss s z (by simp [hz])
    rw [List.foldl_cons]
    by_cases hy : hit y
    · have hnext := hhit s y (by simp) hy hs
      exact ih (hJ _ hnext) (Or.inr hnext)
    · obtain ⟨hI, hJ'⟩ := hmiss s y (by simp) hy
      refine ih (hI hs) (hl.imp ?_ hJ')
      rintro ⟨z, hz, hit⟩
      rcases List.mem_cons.mp hz with rfl | hz
      · exact absurd hit hy
      · exact ⟨z, hz, hit⟩

namespace Pass

variable {α : Type} {b p q : Pass α} {c : Container α} {v : Visitor α} {id x y : NodeId}
  {P : Chore α → Prop} {t : Chore α} {waits : Bool} {xs : List NodeId} {s : LinesState α}
  {r : Request α}

/-- Chores after which a child has nothing new to wait for. -/
def KeepsServed (x : NodeId) : Chore α → Prop
  | .ask y r => y = x → r.performLayout = true
  | .settle y | .number y _ | .clear y => y ≠ x
  | .note | .report | .place _ | .heed _ => True

theorem Upkeep.keepsServed (h : Upkeep true xs t) (x : NodeId) : KeepsServed x t := by
  cases t with
  | ask => exact fun _ => h.2 rfl
  | note | report | place | heed => trivial
  | settle | number | clear => exact h.elim

theorem About.keepsServed (h : About xs t) (hno : x ∉ xs) : KeepsServed x t := by
  cases t with
  | ask => exact fun he => absurd (he ▸ h) hno
  | settle | number | clear => exact fun he => hno (he ▸ h)
  | note | report | place | heed => trivial

variable [Scalar α]

/-- The pass has laid out the node in full, and the node has what came of it. -/
structure Shown (x : NodeId) (p : Pass α) : Prop where
  live : p.tree.Live x
  size : (p.node x).geometry.size = (p.node x).geometry.measured
  hasNewLayout : (p.node x).hasNewLayout = true
  generation : (p.node x).geometry.generation = p.generation
  memory : (p.node x).measure = none → (p.node x).geometry.lastLayout ≠ .blank

/-- The last visit to a node since `b` was for a full layout. -/
structure Served (b : Pass α) (x : NodeId) (p : Pass α) : Prop extends Shown x p where
  asked : ∃ run u, p.trail = run ++ b.trail ∧ run.find? (·.node == x) = some u ∧
    u.request.performLayout = true

theorem Served.place (h : Served b x p) {f : Node α → Geometry α}
    (hf : ∀ n : Node α, n.geometry.SameBox (f n)) : Served b x (p.redraw x f) := by
  have hnode : (p.redraw x f).node x = { p.node x with geometry := f (p.node x) } :=
    node_update_self h.live _
  have hbox := hf (p.node x)
  refine ⟨⟨Tree.live_update.mpr h.live, ?_, ?_, ?_, ?_⟩, h.asked⟩
  all_goals rw [hnode]
  · rw [hbox]
    exact h.size
  · exact h.hasNewLayout
  · rw [hbox]
    exact h.generation
  · rw [hbox]
    exact h.memory

theorem Answers.shown (h : Answers x r p q) (hr : r.performLayout = true)
    (hgen : q.generation = p.generation) : Shown x q := by
  obtain ⟨m, hm, -, hmemory⟩ := h.node
  refine ⟨⟨_, hm⟩, ?_, ?_, ?_, ?_⟩
  all_goals rw [node_of_find? hm]
  · simp [Node.answered, hr]
  · simp [Node.answered, hr]
  · exact hgen.symm
  · exact hmemory hr

theorem visit_shown (hs : p.tree.Sound) (hg : p.tree.Grounded x) (hr : r.performLayout = true)
    (fuel : Nat) : Shown x (visit (fuel + 1) x r p).2 :=
  (visit_answers hs hg fuel r).shown hr
    (visit_moves _ r (Ready.univ hs hg.live).admitted).generation.1

theorem Served.beside (h : Served b x p) (hs : p.tree.Sound) (hm : Moves {x}ᶜ p q) :
    Served b x q := by
  obtain ⟨run, u, htrail, hu, hfull⟩ := h.asked
  obtain ⟨run', htrail', hrun'⟩ := hm.trail
  obtain ⟨j, hj⟩ := hm.untouched hs (by simp) (node_eq h.live)
  have hnone : run'.find? (·.node == x) = none := by simpa using hrun'
  refine ⟨⟨⟨_, hj⟩, ?_, ?_, ?_, ?_⟩, run' ++ run, u, by rw [htrail', htrail, List.append_assoc], ?_,
    hfull⟩
  · rw [node_of_find? hj]
    exact h.size
  · rw [node_of_find? hj]
    exact h.hasNewLayout
  · rw [node_of_find? hj]
    exact h.generation.trans hm.generation.1.symm
  · rw [node_of_find? hj]
    exact h.memory
  · rw [List.find?_append, hnone, hu]
    rfl

/-- A child of a container whose visitor is attentive. -/
structure VisitedChild (v : Visitor α) (c : Container α) (b : Pass α) (x : NodeId) : Prop where
  visitor : Attentive v
  nested : Nested b c.id
  mem : x ∈ b.children c.id

/-- A child was served, or else it waits to be stretched. -/
structure Attended (v : Visitor α) (c : Container α) (b : Pass α) (x : NodeId) (waits : Bool)
    (p : Pass α) : Prop extends VisitedChild v c b x where
  moves : Moves Set.univ b p
  served : Served b x p ∨ waits = true ∧ c.stretchesChild (p.node c.id) (p.node x) = true

section

variable (h : Attended v c b x waits p)

include h

theorem Attended.still (hm : Moves Set.univ p q) (hstill : Still x p q)
    (hserved : Served b x p → Served b x q) : Attended v c b x waits q := by
  have hn := h.nested.moves h.moves
  have hx := h.mem
  rw [← h.nested.children h.moves] at hx
  refine ⟨h.toVisitedChild, h.moves.trans hm, h.served.imp hserved (And.imp id fun hwait => ?_)⟩
  rwa [c.stretchesChild_role (hm.node_kin hn.sound hn.live) (hstill.node (hn.child hx).live)]

end

section

variable (ht : VisitedChild v c b x)

include ht

theorem VisitedChild.kind (hm : Moves Set.univ b p) : (p.node x).isHidden = (b.node x).isHidden ∧
    (p.node x).isAbsolute = (b.node x).isAbsolute ∧ (p.node x).isInFlow = (b.node x).isInFlow :=
  hm.kind ht.nested.sound (ht.nested.child ht.mem).live

theorem VisitedChild.on (hm : Moves Set.univ b p) (hxs : ∀ y ∈ xs, y ∈ b.children c.id)
    (hw : Works v c.id (About xs) p q) : Moves Set.univ b q :=
  ht.nested.on ht.visitor.moves hm hxs hw

/-- A child that is asked for a full layout is served. Asked for less, it can still wait. -/
theorem VisitedChild.ask (hm : Moves Set.univ b p) (hr : r.performLayout = true ∨
      waits = true ∧ c.stretchesChild (p.node c.id) (p.node x) = true) :
    Attended v c b x waits (v x r p) := by
  have hn := ht.nested.moves hm
  have hx := ht.mem
  rw [← ht.nested.children hm] at hx
  have hmoves := ht.visitor.moves x r p (hn.child hx)
  have hanswer := ht.visitor.answers r hn.sound
    (hn.grounded.child (by rwa [← children_eq hn.live]))
  refine ⟨ht, hm.trans hmoves, hr.imp (fun hfull => ⟨hanswer.shown hfull hmoves.generation.1, ?_⟩)
    (And.imp id fun hwait => ?_)⟩
  · obtain ⟨run, source, htrail, hrun⟩ := hanswer.trail
    obtain ⟨before, hbefore, -⟩ := hm.trail
    have hnone : run.find? (·.node == x) = none := by simpa using hrun
    refine ⟨run ++ ⟨x, r, source⟩ :: before, ⟨x, r, source⟩, ?_, ?_, hfull⟩
    · rw [htrail, hbefore, List.append_assoc, List.cons_append]
    · rw [List.find?_append, hnone, List.find?_cons_of_pos (by simp)]
      rfl
  · obtain ⟨m, hm, hrole, -⟩ := hanswer.node
    rw [node_of_find? hm,
      c.stretchesChild_role (hmoves.node_kin hn.sound hn.live)
        (hrole.trans (show Node.SameRole m (m.answered r p.generation) from rfl))]
    exact hwait

end

section

variable (h : Attended v c b x waits p)

include h

theorem Attended.works (hw : Works v c.id P p q)
    (hP : ∀ t, P t → About (b.children c.id) t ∧ KeepsServed x t) : Attended v c b x waits q := by
  induction hw with
  | refl => exact h
  | tail _ hd ih =>
    obtain ⟨t, ht, hd⟩ := hd
    obtain ⟨habout, hkeeps⟩ := hP t ht
    have hn := h.nested.moves ih.moves
    have hkids := h.nested.children ih.moves
    by_cases hc : t.child? = some x
    · cases hd with
      | place _ y hf =>
        obtain rfl := Option.some.inj hc
        exact ih.still (redraw_moves (Set.mem_univ y) _) (.update fun _ => rfl) fun h => h.place hf
      | ask _ y r =>
        obtain rfl := Option.some.inj hc
        exact h.ask ih.moves (Or.inl (hkeeps rfl))
      | settle | base | number | clear => exact absurd (Option.some.inj hc) hkeeps
      | note | overrun | heed | tell | count => cases hc
    · have hm := hn.beside h.visitor.toDiscreet (hkids ▸ habout) hd (Or.inr ⟨hkids ▸ h.mem, hc⟩)
      exact ih.still (hm.mono (Set.subset_univ _)) (hm.still hn.sound) fun h =>
        h.beside hn.sound hm

theorem Attended.upkeep (hw : Works v c.id (Upkeep true (b.children c.id)) p q) :
    Attended v c b x waits q :=
  h.works hw fun _ ht => ⟨ht.about, ht.keepsServed x⟩

theorem Attended.others (hxs : ∀ y ∈ xs, y ∈ b.children c.id) (hno : x ∉ xs)
    (hw : Works v c.id (About xs) p q) : Attended v c b x waits q :=
  h.works hw fun _ ht => ⟨ht.mono hxs, ht.keepsServed hno⟩

theorem Attended.other (hy : y ∈ b.children c.id) (hne : y ≠ x)
    (hw : Works v c.id (About [y]) p q) : Attended v c b x waits q :=
  h.others (by simpa) (by simpa using hne.symm) hw

end

section

variable (ht : VisitedChild v c b x) (hl : c.performLayout = true)

theorem placeChildCross_attended (plan : CrossPlan α) (h : Attended v c b x true p)
    (hflow : (b.node x).isInFlow = true) :
    Attended v c b x false (p.placeChildCross v c plan x) := by
  have hkind : (p.node x).isHidden = false ∧ (p.node x).isAbsolute = false := by
    rw [← (h.kind h.moves).2.2] at hflow
    simpa [Node.isInFlow] using hflow
  unfold placeChildCross placeItemCross
  dsimp only
  rw [hkind.1, hkind.2, stretches_eq]
  simp only [Bool.false_eq_true, if_false]
  have hlaid : Attended v c b x false
      (if c.stretchesChild (p.node c.id) (p.node x) = true then
        v x (c.stretchRequest plan.innerMain plan.lineCross (p.node x)) p else p) := by
    split
    · exact h.ask h.moves (Or.inl rfl)
    · rename_i hno
      exact ⟨h.toVisitedChild, h.moves, Or.inl (h.served.resolve_right fun hwait => hno hwait.2)⟩
  exact hlaid.upkeep (shiftBy_works _ _ h.mem)

include hl

theorem placeFlexed_attended (plan : LinesPlan α) (s : LinesState α) (line : Line α)
    (innerMain : Extent α) (h : Attended v c b x true p) (hxs : ∀ y ∈ xs, y ∈ b.children c.id)
    (hflow : (b.node x).isInFlow = true) (hi : x ∈ xs.take line.length) :
    Attended v c b x false (placeFlexed v c plan xs s line innerMain p).2.pass := by
  have htake := fun y hy => hxs y (List.mem_of_mem_take (i := line.length) hy)
  have hjust := h.upkeep (justifyLine_works (c := c) plan.mainMode innerMain line htake trivial)
  unfold placeFlexed
  dsimp only
  generalize p.justifyLine c plan.mainMode innerMain _ line = justified at hjust ⊢
  rw [if_pos hl]
  have hwork : ∀ (p : Pass α) plan y,
      Works v c.id (About [y]) p (p.placeChildCross v c plan y) := fun p plan y =>
    (placeChildCross_works plan (by simp)).about
  exact foldl_turns (· = x)
    (fun _ h => ⟨h.toVisitedChild, h.moves, Or.inl (h.served.resolve_right nofun)⟩)
    (fun _ _ _ he h => by
      subst he
      exact placeChildCross_attended _ h hflow)
    (fun p y hy hne => ⟨fun h => h.other (htake y hy) hne (hwork p _ y), fun h =>
      h.other (htake y hy) hne (hwork p _ y)⟩) hjust (Or.inl ⟨x, hi, rfl⟩)

include ht

theorem layItem_attended (innerMain : Extent α) (overflows : Bool) (space : Space α)
    {s : α × Pass α} {item : FlexItem α} (hi : item.id = x) (hm : Moves Set.univ b s.2) :
    Attended v c b x true (layItem v c innerMain overflows space s item).2 := by
  subst hi
  unfold layItem
  dsimp only
  refine (ht.ask hm ?_).upkeep (heed_works ht.mem)
  cases hs : c.stretchesChild (s.2.node c.id) (s.2.node item.id) with
  | true => exact Or.inr ⟨rfl, rfl⟩
  | false => exact Or.inl (by simp [Container.request, hl])

theorem flexLine_attended (innerMain : Extent α) (overflows : Bool) (line : Line α)
    (hm : Moves Set.univ b p) (hxs : ∀ y ∈ line.items, y ∈ b.children c.id) (hi : x ∈ line.items) :
    Attended v c b x true (p.flexLine v c innerMain overflows line).2 := by
  have hids := frozenItems_ids c innerMain line p
  rw [flexLine_pass]
  generalize frozenItems c innerMain line p = frozen at hids ⊢
  have hmem : ∀ item ∈ frozen.items, item.id ∈ b.children c.id := fun item h =>
    hxs _ (hids ▸ List.mem_map_of_mem h)
  have hwork : ∀ (s : α × Pass α) {item : FlexItem α}, Works v c.id (About [item.id]) s.2
      (layItem v c innerMain overflows frozen.space s item).2 :=
    fun _ => (layItem_works _ _ _ (by simp)).about
  have hcount : Moves Set.univ b (p.count fun s => { s with
      maxFlexIterations := max s.maxFlexIterations frozen.rounds }) :=
    hm.trans (count_moves fun _ => le_rfl)
  rw [← hids] at hi
  obtain ⟨item, hitem, he⟩ := List.mem_map.mp hi
  exact foldl_turns (I := fun s : α × Pass α => Moves Set.univ b s.2)
    (J := fun s => Attended v c b x true s.2) (fun item => item.id = x) (fun _ h => h.moves)
    (fun _ _ _ he hs => layItem_attended ht hl _ _ _ he hs)
    (fun s item h hne => ⟨fun hs => ht.on hs (by simpa using hmem item h) (hwork s),
      fun hs => hs.other (hmem item h) hne (hwork s)⟩)
    hcount (Or.inl ⟨item, hitem, he⟩)

theorem flexCollected_attended (plan : LinesPlan α) (innerMain : Extent α) {line : Line α}
    (hm : Moves Set.univ b p) (hxs : ∀ y ∈ line.items, y ∈ b.children c.id) (hi : x ∈ line.items) :
    Attended v c b x true (flexCollected v c plan innerMain line p).2 := by
  unfold flexCollected
  generalize Container.lineSpan plan innerMain line.consumed = span
  dsimp only
  have hnote : Moves Set.univ b (p.updateGeometryIf
      (span.byContent && (p.node c.id).config.legacyStretch) c.id
      fun g => { g with usedLegacyStretch := true }) :=
    hm.trans (updateGeometryIf_moves (Set.mem_univ _) _ _)
  generalize p.updateGeometryIf _ _ _ = u at hnote ⊢
  generalize Container.freeSpace span.innerMain _ _ = free
  rw [if_neg (by simp [hl])]
  have hflex := flexLine_attended ht hl span.innerMain plan.overflows
    { line with space := { line.space with free := free } } hnote hxs hi
  generalize u.flexLine v c span.innerMain plan.overflows _ = flexed at hflex ⊢
  exact hflex.upkeep (overrun_works _ trivial)

theorem layLine_attended (plan : LinesPlan α) (hm : Moves Set.univ b s.pass)
    (hxs : ∀ y ∈ xs, y ∈ b.children c.id) (hflow : (b.node x).isInFlow = true)
    (hi : x ∈ xs.take (layLine v c plan xs s).1) :
    Attended v c b x false (layLine v c plan xs s).2.pass := by
  have hcut := s.pass.collectLine_cut c s.innerMain xs s.count
  have hitems := fun y hy => hxs y (hcut.inFlow y hy).1
  have hcol := ht.on hm hxs (collectLine_works (c := c) s.innerMain s.count
    (collectLine_items c s.innerMain xs s.count))
  have hhere := hi
  rw [layLine_length] at hhere
  rw [layLine_eq, flexFront_eq] at hi ⊢
  refine placeFlexed_attended hl plan s _ _ (flexCollected_attended ht hl plan _ hcol hitems
    (hcut.taken x hhere ?_)) hxs hflow hi
  rw [(ht.kind hm).2.2, hflow]

theorem layLines_attended (plan : LinesPlan α) {fuel : Nat} (hfuel : xs.length ≤ fuel)
    (hm : Moves Set.univ b s.pass) (hxs : ∀ y ∈ xs, y ∈ b.children c.id)
    (hflow : (b.node x).isInFlow = true) (hi : x ∈ xs) :
    Attended v c b x false (layLines v c plan fuel xs s).pass := by
  induction fuel generalizing xs s with
  | zero =>
    obtain rfl := List.length_eq_zero_iff.mp (Nat.le_zero.mp hfuel)
    cases hi
  | succ fuel ih =>
    have hdrop := fun y hy => hxs y (List.mem_of_mem_drop (i := (layLine v c plan xs s).1) hy)
    rw [layLines_more (List.ne_nil_of_mem hi)]
    by_cases hlater : x ∈ xs.drop (layLine v c plan xs s).1
    · refine ih ?_ (ht.on hm hxs (layLine_works plan fun _ => List.mem_of_mem_take)) hdrop hlater
      have hpos := (s.pass.collectLine_cut c s.innerMain xs s.count).progress
        (List.ne_nil_of_mem hi)
      rw [List.length_drop, layLine_length]
      omega
    · rw [← List.take_append_drop (layLine v c plan xs s).1 xs] at hi
      have hhere := (List.mem_append.mp hi).resolve_right hlater
      exact (layLine_attended ht hl plan hm hxs hflow hhere).others hdrop hlater
        (layLines_works plan fuel fun _ h => h)

end

section

variable (ht : VisitedChild v c b x)

include ht

theorem layAbsolute_attended (widthMode : MeasureMode) (hm : Moves Set.univ b p) :
    Attended v c b x false (p.layAbsolute v c widthMode x) := by
  have hsize := ht.on hm (by simpa using ht.mem)
    (sizeAbsolute_works (c := c) widthMode fun _ => List.mem_singleton_self x)
  unfold layAbsolute
  dsimp only
  generalize p.sizeAbsolute v c widthMode x = sized at hsize ⊢
  exact (ht.ask hsize (Or.inl rfl)).upkeep (placeAbsolute_works ht.mem)

theorem placeRest_attended (mainMode : MeasureMode) (crossSize : α) (hm : Moves Set.univ b p)
    (h : (b.node x).isAbsolute = false → Attended v c b x false p) :
    Attended v c b x false (p.placeRest v c mainMode crossSize) := by
  have hwork : Works v c.id (Upkeep true (b.children c.id)) p
      (if (p.node c.id).style.flexWrap == .wrapReverse then p.reverseLines c crossSize else p) :=
    ite_works (reverseLines_works _ fun y hy => ht.nested.children hm ▸ hy) (.refl p)
  have hrev := ht.on hm (fun _ h => h) hwork.about
  have hkept := fun hno => (h hno).upkeep hwork
  unfold placeRest
  dsimp only
  generalize (if (p.node c.id).style.flexWrap == .wrapReverse then
    p.reverseLines c crossSize else p) = u at hrev hkept ⊢
  generalize (if c.isRow then mainMode else c.crossMode) = widthMode
  rw [ht.nested.children hrev]
  -- The walk over absolute children comes by the child if it is one of them.
  have hall : Attended v c b x false ((b.children c.id).foldl (fun p y =>
      if (p.node y).isAbsolute then p.layAbsolute v c widthMode y else p) u) := by
    refine foldl_turns (I := Moves Set.univ b) (fun y => y = x ∧ (b.node x).isAbsolute = true)
      (fun _ h => h.moves) ?_ (fun q y hy hno => ?_) hrev ?_
    · rintro q _ - ⟨rfl, habs⟩ hq
      rw [(ht.kind hq).2.1, if_pos habs]
      exact layAbsolute_attended ht widthMode hq
    · by_cases hyx : y = x
      · subst hyx
        have hsame : Moves Set.univ b q →
            (if (q.node y).isAbsolute then q.layAbsolute v c widthMode y else q) = q := fun hq => by
          rw [(ht.kind hq).2.1, if_neg fun habs => hno ⟨rfl, habs⟩]
        exact ⟨fun hq => (hsame hq).symm ▸ hq, fun h => (hsame h.moves).symm ▸ h⟩
      · have hone : Works v c.id (About [y]) q
            (if (q.node y).isAbsolute then q.layAbsolute v c widthMode y else q) :=
          ite_works (layAbsolute_works _ (List.mem_singleton_self y) fun _ =>
            List.mem_singleton_self y) (.refl q)
        exact ⟨fun hq => ht.on hq (by simpa using hy) hone, fun h => h.other hy hyx hone⟩
    · cases habs : (b.node x).isAbsolute with
      | true => exact Or.inl ⟨x, ht.mem, rfl, rfl⟩
      | false => exact Or.inr (hkept habs)
  exact hall.upkeep (setTrailings_works fun y hy => ht.nested.children hall.moves ▸ hy)

theorem layLinesAndSize_attended (plan : LinesPlan α) (r : Request α)
    (hl : c.performLayout = true) (hm : Moves Set.univ b p) (hshown : (b.node x).isHidden = false) :
    Attended v c b x false (p.layLinesAndSize v c plan r) := by
  have hlines : Moves Set.univ b (layLines v c plan (b.children c.id).length (b.children c.id)
      ⟨c.innerMain, 0, 0, 0, p⟩).pass :=
    ht.on (p := (⟨c.innerMain, 0, 0, 0, p⟩ : LinesState α).pass) hm (fun _ h => h)
      (layLines_works plan _ fun _ h => h)
  have hflow : (b.node x).isAbsolute = false → Attended v c b x false
      (layLines v c plan (b.children c.id).length (b.children c.id)
        ⟨c.innerMain, 0, 0, 0, p⟩).pass := fun habs =>
    layLines_attended ht hl plan le_rfl hm (fun _ h => h) (by simp [Node.isInFlow, hshown, habs])
      ht.mem
  unfold layLinesAndSize
  dsimp only
  rw [ht.nested.children hm, if_pos hl]
  generalize layLines v c plan _ _ _ = s at hlines hflow ⊢
  have hspread : Works v c.id (Upkeep true (b.children c.id)) s.pass
      (spreadLines v c plan.leadingFrameCross s) := by
    rw [← ht.nested.children hlines]
    exact spreadLines_works _
  generalize spreadLines v c plan.leadingFrameCross s = q at hspread ⊢
  generalize c.finalSizes _ plan r s.innerMain s.maxMain s.totalCross = size
  have hset := hspread.trans (setFinal_works size.1 size.2 trivial)
  exact placeRest_attended ht _ _ (ht.on hlines (fun _ h => h) hset.about) fun habs =>
    (hflow habs).upkeep hset

end

theorem layContainer_served (hv : Attentive v) (hs : p.tree.Sound) (hg : p.tree.Grounded id)
    (hl : r.performLayout = true) (direction : Direction)
    (hx : x ∈ (p.layContainer v id direction r).children id)
    (hshown : ((p.layContainer v id direction r).node x).isHidden = false) :
    Served p x (p.layContainer v id direction r) := by
  have hb := Nested.enter hs hg
  have htrail : (p.enter id).trail = p.trail := rfl
  rw [layContainer_eq] at *
  dsimp only at *
  generalize p.enter id = b at *
  generalize hc : Container.ofRequest (b.node id) id _ r = c at *
  obtain rfl : c.id = id := by rw [← hc]; rfl
  have hbasis := hb.on hv.moves (.refl b) (fun _ h => h) (basisOfChildren_works c)
  generalize b.basisOfChildren v c = basis at *
  generalize c.linesPlan (b.node c.id) basis.1 = plan at *
  have hmoves := hbasis.trans ((Moves.conduct Set.univ).labors hv.moves
    (hb.moves hbasis).toHeld (layLinesAndSize_labors plan r))
  rw [hb.children hmoves] at hx
  have ht : VisitedChild v c b x := ⟨hv, hb, hx⟩
  rw [(ht.kind hmoves).1] at hshown
  have hserved := (layLinesAndSize_attended ht plan r (by rw [← hc]; exact hl) hbasis
    hshown).served.resolve_right nofun
  exact ⟨hserved.toShown, htrail ▸ hserved.asked⟩

/-- A node with children puts its edges on record, and then it is laid out as a container. -/
theorem layNode_container {r : Request α} (hn : p.tree.find? id = some n)
    (hmeasure : n.measure = none) (hchildren : n.children ≠ [])
    (hwork : r.performLayout = true ∨ r.isSettled = false) (v : Visitor α) :
    ∃ q : Pass α, Moves Set.univ p q ∧ q.trail = p.trail ∧ q.tree.find? id = some { n with
        geometry := n.withBoxEdges (n.resolveDirection r.ownerDirection) r.ownerWidth } ∧
      p.layNode v id r = q.layContainer v id (n.resolveDirection r.ownerDirection) r := by
  have hfind : (p.edged id r).tree.find? id = some { n with
      geometry := n.withBoxEdges (n.resolveDirection r.ownerDirection) r.ownerWidth } := by
    rw [edged, node_of_find? hn, redraw, Pass.update, Tree.find?_update_self]
    exact congrArg (Option.map _) hn
  refine ⟨_, edged_moves (Set.mem_univ id) r, rfl, hfind, ?_⟩
  rw [layNode_eq, layInside, node_of_find? hn, node_of_find? hfind]
  have hempty : n.children.isEmpty = false := by simpa using hchildren
  have hfull : (!r.performLayout && r.isSettled) = false := by
    rcases hwork with hl | hno
    · simp [hl]
    · simp [hno]
  simp only [hmeasure, hempty, hfull, Bool.false_eq_true, if_false]

/-- When a node with children is laid out in full, each child that is displayed is visited, the last
time for a full layout. So it has the size it measured, a new layout, and the number of the pass. -/
theorem displayed_children_laid_out {n : Node α} (hs : p.tree.Sound) (hg : p.tree.Grounded id)
    (hn : p.tree.find? id = some n) (hchildren : n.children ≠ []) (hl : r.performLayout = true)
    (fuel : Nat) :
    let q := p.layNode (fun x r p => (visit (fuel + 1) x r p).2) id r
    ∃ run, q.trail = run ++ p.trail ∧ ∀ x ∈ q.children id, ∃ m, q.tree.find? x = some m ∧
      (m.isHidden = false →
        (∃ u, run.find? (·.node == x) = some u ∧ u.request.performLayout = true) ∧
        m.geometry.size = m.geometry.measured ∧ m.hasNewLayout = true ∧
        m.geometry.generation = q.generation) := by
  have hv := visit_attentive (α := α) (Nat.succ_pos fuel)
  generalize (fun x r p => (visit (fuel + 1) x r p).2 : Visitor α) = v at hv ⊢
  have hmeasure : n.measure = none := by
    by_contra hsome
    exact hchildren (hs.arena.leaf hn (Option.ne_none_iff_isSome.mp hsome))
  have hmoves := layNode_moves hv.moves r (Ready.univ hs ⟨n, hn⟩).admitted
  obtain ⟨u, hu, htrail, -, hlay⟩ := layNode_container hn hmeasure hchildren (Or.inl hl) v
  have hserved := fun x => layContainer_served (x := x) hv (hu.sound hs) (hu.grounded hs hg) hl
    (n.resolveDirection r.ownerDirection)
  rw [← hlay] at hserved
  generalize p.layNode v id r = q at hserved hmoves ⊢
  obtain ⟨run, hrun, -⟩ := hmoves.trail
  refine ⟨run, hrun, fun x hx => ?_⟩
  have hkid := hx
  rw [children_eq (hmoves.live hs ⟨n, hn⟩)] at hkid
  refine ⟨q.node x, node_eq ((hmoves.sound hs).arena.accounted.live hkid), fun hshown => ?_⟩
  have hserved := hserved x hx hshown
  obtain ⟨run', w, hrun', hw⟩ := hserved.asked
  rw [htrail] at hrun'
  obtain rfl := List.append_cancel_right (hrun.symm.trans hrun')
  exact ⟨⟨w, hw⟩, hserved.size, hserved.hasNewLayout, hserved.generation⟩

end Pass

namespace Tree

/-- A row of a child that is stretched, one that is not, one that is hidden and an absolute one. -/
def fourChildren : Tree Float32 :=
  (Tree.empty gridless).after [.newNode none, .newNode none, .newNode none, .newNode none,
    .newNode none, .addChild ⟨1, 1⟩ ⟨2, 1⟩, .addChild ⟨1, 1⟩ ⟨3, 1⟩, .addChild ⟨1, 1⟩ ⟨4, 1⟩,
    .addChild ⟨1, 1⟩ ⟨5, 1⟩,
    .updateStyle ⟨1, 1⟩ fun s =>
      { s with flexDirection := .row, size := ⟨.points 100, .points 50⟩ },
    .updateStyle ⟨3, 1⟩ fun s => { s with size := ⟨.points 10, .points 20⟩ },
    .updateStyle ⟨4, 1⟩ fun s => { s with display := .none },
    .updateStyle ⟨5, 1⟩ fun s => { s with positionType := .absolute }]

def fourChildrenRequest : Request Float32 :=
  ⟨⟨.known 100, .exactly⟩, ⟨.known 50, .exactly⟩, .ltr, .known 100, .known 50, true⟩

theorem displayed_children_laid_out_four :
    fourChildren.Sound ∧ fourChildren.Grounded ⟨1, 1⟩ ∧ fourChildrenRequest.performLayout = true ∧
    (∃ n, fourChildren.find? ⟨1, 1⟩ = some n ∧ n.children ≠ []) ∧
    let p := Pass.start fourChildren .initial
    let q := p.layNode (fun x r p => (Pass.visit (0 + 1) x r p).2) ⟨1, 1⟩ fourChildrenRequest
    ∃ run, q.trail = run ++ p.trail ∧ ∀ x ∈ q.children ⟨1, 1⟩, ∃ m, q.tree.find? x = some m ∧
      (m.isHidden = false →
        (∃ u, run.find? (·.node == x) = some u ∧ u.request.performLayout = true) ∧
        m.geometry.size = m.geometry.measured ∧ m.hasNewLayout = true ∧
        m.geometry.generation = q.generation) := by
  have hs : fourChildren.Sound :=
    (Reachable.after (.empty rfl) (by simp [Call.Hookless, Call.Returns])).sound
  have hg : fourChildren.Grounded ⟨1, 1⟩ := ⟨2, by decide +kernel⟩
  have hfour : (fourChildren.find? ⟨1, 1⟩).map (·.children.length) = some 4 := by decide +kernel
  obtain ⟨n, hn, hlength⟩ := Option.map_eq_some_iff.mp hfour
  have hchildren : n.children ≠ [] := List.ne_nil_of_length_eq_add_one hlength
  refine ⟨hs, hg, rfl, ⟨n, hn, hchildren⟩, ?_⟩
  generalize fourChildren = t at hs hg hn ⊢
  exact Pass.displayed_children_laid_out (p := Pass.start t .initial) hs hg hn hchildren rfl 0

end Tree

end Flexbox
