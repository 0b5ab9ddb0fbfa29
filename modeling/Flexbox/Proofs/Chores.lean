import Flexbox.Proofs.LineBreaks

namespace Flexbox

/-- Something that a container does to itself or to a child. -/
inductive Chore (α : Type)
  /-- A note on the container. -/
  | note
  /-- Settles which size the style of a child asks for, or its basis. -/
  | settle (child : NodeId)
  | place (child : NodeId)
  | number (child : NodeId) (line : Nat)
  /-- Empties a hidden child and all that is below it. -/
  | clear (child : NodeId)
  | ask (child : NodeId) (r : Request α)
  /-- Takes over from a child that its content runs over. -/
  | heed (child : NodeId)
  /-- Tells the host, or counts. -/
  | report

def Event.isDirtied {α : Type} : Event α → Bool
  | .dirtied .. => true
  | _ => false

/-- The host is told of something else than a dirty mark. -/
def Event.Quiet {α : Type} (e : Event α) : Prop := e.isDirtied = false

/-- Only the place differs. -/
def Geometry.SameBox {α : Type} (g h : Geometry α) : Prop :=
  h = { g with position := h.position }

def Geometry.SameAnswers {α : Type} (g h : Geometry α) : Prop :=
  h.generation = g.generation ∧ h.measurements = g.measurements ∧ h.lastLayout = g.lastLayout

/-- A node once it is emptied since it is hidden. -/
def Node.emptied {α : Type} [Scalar α] (n : Node α) : Node α :=
  { n with
    geometry := { (Geometry.initial : Geometry α) with size := .both (.of 0) }
    hasNewLayout := true
    isDirty := false }

namespace Pass

variable {α : Type} [Scalar α] {visit : Visitor α} {id x : NodeId} {P Q : Chore α → Prop}
  {kids : List NodeId} {p q r : Pass α}

theorem zeroOut_succ (fuel : Nat) (id : NodeId) (p : Pass α) :
    zeroOut (fuel + 1) id p = (((p.update id Node.emptied).ownChildren id).children id).foldl
      (fun p child => zeroOut fuel child p) ((p.update id Node.emptied).ownChildren id) :=
  rfl

/-- The container `id` does a chore. -/
inductive Does (visit : Visitor α) (id : NodeId) : Chore α → Pass α → Pass α → Prop
  | note (p : Pass α) {f : Geometry α → Geometry α} (hf : ∀ g : Geometry α, g.SameAnswers (f g))
      (hflag : ∀ g, (f g).hadOverflow = true → g.hadOverflow = true) :
      Does visit id .note p (p.updateGeometry id f)
  | overrun (p : Pass α) (h : ((p.node id).style.overflow != .visible) = true) :
      Does visit id .note p (p.updateGeometry id fun g => { g with hadOverflow := true })
  | heed (p : Pass α) (x : NodeId) (h : (p.node x).geometry.hadOverflow = true) :
      Does visit id (.heed x) p (p.updateGeometry id fun g => { g with hadOverflow := true })
  | settle (p : Pass α) (x : NodeId) : Does visit id (.settle x) p (p.update x Node.resolveSize)
  | base (p : Pass α) (x : NodeId) (basis : Extent α) :
      Does visit id (.settle x) p (p.setBasis x basis)
  | place (p : Pass α) (x : NodeId) {f : Node α → Geometry α}
      (hf : ∀ n : Node α, n.geometry.SameBox (f n)) : Does visit id (.place x) p (p.redraw x f)
  | number (p : Pass α) (x : NodeId) (line : Nat) :
      Does visit id (.number x line) p (p.update x fun n => { n with line := line })
  | clear (p : Pass α) (x : NodeId) (fuel : Nat) : Does visit id (.clear x) p (zeroOut fuel x p)
  | ask (p : Pass α) (x : NodeId) (r : Request α) : Does visit id (.ask x r) p (visit x r p)
  | tell (p : Pass α) {e : Event α} (he : e.Quiet) : Does visit id .report p (p.tell e)
  | count (p : Pass α) {f : Stats → Stats}
      (hf : ∀ s, s.maxMeasureCache ≤ (f s).maxMeasureCache) : Does visit id .report p (p.count f)

/-- Any number of chores that `P` allows. -/
def Works (visit : Visitor α) (id : NodeId) (P : Chore α → Prop) : Pass α → Pass α → Prop :=
  Relation.ReflTransGen fun p q => ∃ t, P t ∧ Does visit id t p q

theorem Works.refl (p : Pass α) : Works visit id P p p := Relation.ReflTransGen.refl

theorem Works.trans (h : Works visit id P p q) (h' : Works visit id P q r) : Works visit id P p r :=
  Relation.ReflTransGen.trans h h'

theorem Works.mono (h : Works visit id P p q) (hPQ : ∀ t, P t → Q t) : Works visit id Q p q :=
  Relation.ReflTransGen.mono (fun _ _ ⟨t, ht, hd⟩ => ⟨t, hPQ t ht, hd⟩) _ _ h

theorem Does.works {t : Chore α} (h : Does visit id t p q) (ht : P t) : Works visit id P p q :=
  Relation.ReflTransGen.single ⟨t, ht, h⟩

/-- The chores that are about some of `kids`, or about no child. -/
def About (kids : List NodeId) : Chore α → Prop
  | .note | .report => True
  | .settle x | .place x | .number x _ | .clear x | .ask x _ | .heed x => x ∈ kids

omit [Scalar α] in
theorem About.mono {xs : List NodeId} {t : Chore α} (h : About xs t) (hxs : ∀ x ∈ xs, x ∈ kids) :
    About kids t := by
  cases t with
  | note | report => trivial
  | settle | place | number | clear | ask | heed => exact hxs _ h

/-- The chores on `kids` that neither settle nor number nor clear them. If `full`, they are asked
for nothing but full layouts. -/
def Upkeep (full : Bool) (kids : List NodeId) : Chore α → Prop
  | .note | .report => True
  | .place x | .heed x => x ∈ kids
  | .ask x r => x ∈ kids ∧ (full = true → r.performLayout = true)
  | .settle _ | .number .. | .clear _ => False

omit [Scalar α] in
theorem Upkeep.about {full : Bool} {t : Chore α} (h : Upkeep full kids t) : About kids t := by
  cases t with
  | ask => exact h.1
  | note | report | place | heed => exact h
  | settle | number | clear => exact h.elim

theorem Works.about {full : Bool} (h : Works visit id (Upkeep full kids) p q) :
    Works visit id (About kids) p q :=
  h.mono fun _ ht => ht.about

/-- The chores that are about one child and tell the container nothing of it. -/
def Sole (child : NodeId) : Chore α → Prop
  | .settle x | .place x | .clear x | .ask x _ => x = child
  | .note | .number .. | .heed _ | .report => False

/-- Works one after the other that `P` allows, each with the children that the container has when
it begins. -/
def Labors (visit : Visitor α) (id : NodeId) (P : Chore α → Prop) : Pass α → Pass α → Prop :=
  Relation.ReflTransGen fun p q => Works visit id (fun t => P t ∧ About (p.children id) t) p q

theorem Works.labors (h : Works visit id (fun t => P t ∧ About (p.children id) t) p q) :
    Labors visit id P p q :=
  Relation.ReflTransGen.single h

theorem Works.labors_about (h : Works visit id (About (p.children id)) p q) :
    Labors visit id (fun _ => True) p q :=
  (h.mono fun _ ht => ⟨trivial, ht⟩).labors

theorem ite_works {b : Prop} [Decidable b] (hq : Works visit id P p q) (hr : Works visit id P p r) :
    Works visit id P p (if b then q else r) := by
  split
  · exact hq
  · exact hr

theorem foldl_works {σ γ : Type} (pass : σ → Pass α) {f : σ → γ → σ} (xs : List γ) {s : σ}
    (hf : ∀ s' x, x ∈ xs → Works visit id P (pass s) (pass s') →
      Works visit id P (pass s') (pass (f s' x))) :
    Works visit id P (pass s) (pass (xs.foldl f s)) := by
  induction xs generalizing s with
  | nil => exact .refl _
  | cons x xs ih =>
    have hx := hf s x (by simp) (.refl _)
    exact hx.trans (ih fun s' y hy hw => hf s' y (by simp [hy]) (hx.trans hw))

theorem setPosition_works (side : Side) (a : α) (h : P (.place x)) :
    Works visit id P p (p.setPosition x side a) :=
  Does.works (.place p x fun _ => rfl) h

theorem shiftBy_works (side : Side) (f : α → α) (h : P (.place x)) :
    Works visit id P p (p.shiftBy x side f) :=
  Does.works (.place p x fun _ => rfl) h

theorem setBasis_works (basis : Extent α) (h : P (.settle x)) :
    Works visit id P p (p.setBasis x basis) :=
  Does.works (.base p x basis) h

section

variable {c : Container α} {children : List NodeId} {s : LinesState α} {number : Nat}

theorem basisOfChild_works (hx : x ∈ kids) :
    Works visit id (About kids) p (p.basisOfChild visit c x) := by
  unfold basisOfChild
  split
  · exact .refl p
  · exact setBasis_works _ hx
  · exact (Does.works (.ask p x _) hx).trans (setBasis_works _ hx)

theorem placed_sameBox (n : Node α) (direction : Direction) (main cross width : Extent α) :
    n.geometry.SameBox (n.placed direction main cross width) := by
  unfold Node.placed
  rfl

theorem placeAtStart_works (hplace : P (.place x)) : Works visit id P p (p.placeAtStart c x) :=
  ite_works (Does.works (.place p x fun n => placed_sameBox n _ _ _ _) hplace) (.refl p)

theorem prepareChild_works (lone : Option NodeId) {s : α × Pass α} (hx : x ∈ kids) :
    Works visit id (About kids) s.2 (prepareChild visit c lone s x).2 := by
  have hsize : Works visit id (About kids) s.2 (s.2.update x Node.resolveSize) :=
    Does.works (.settle _ x) hx
  have hstart := hsize.trans (placeAtStart_works (c := c) hx)
  unfold prepareChild
  dsimp only
  split
  · exact hsize.trans (Does.works (.clear _ x _) hx)
  · split
    · exact hstart
    · refine hstart.trans ?_
      unfold prepareBasis
      exact ite_works (setBasis_works _ hx) (basisOfChild_works hx)

theorem basisOfChildren_works (c : Container α) :
    Works visit id (About (p.children c.id)) p (p.basisOfChildren visit c).2 :=
  foldl_works (s := (0, p)) Prod.snd _ fun _ _ hx _ => prepareChild_works _ hx

theorem collectLine_items (c : Container α) (innerMain : Extent α) (children : List NodeId)
    (number : Nat) :
    ∀ x ∈ (collectLine c innerMain children number p).1.items, x ∈ children :=
  fun x hx => ((p.collectLine_cut c innerMain children number).inFlow x hx).1

theorem collectLine_works (innerMain : Extent α) (number : Nat)
    (hxs : ∀ x ∈ (collectLine c innerMain children number p).1.items, x ∈ kids) :
    Works visit id (About kids) p (collectLine c innerMain children number p).2 :=
  foldl_works (fun q => q) _ fun q x hx _ => Does.works (.number q x number) (hxs x hx)

theorem heed_works (h : P (.heed x)) :
    Works visit id P p (p.updateGeometryIf (p.node x).geometry.hadOverflow id fun g =>
      { g with hadOverflow := true }) := by
  unfold updateGeometryIf
  split
  · exact Does.works (.heed p x ‹_›) h
  · exact .refl p

theorem layItem_works (innerMain : Extent α) (overflows : Bool) (space : Space α)
    {s : α × Pass α} {item : FlexItem α} (hx : item.id ∈ kids) :
    Works visit c.id (Upkeep false kids) s.2 (layItem visit c innerMain overflows space s item).2 :=
  (Does.works (.ask s.2 item.id _) ⟨hx, nofun⟩).trans (heed_works hx)

theorem freezeRound_ids (items : List (FlexItem α)) (round : FreezeRound α) :
    (items.foldl FreezeRound.step round).seen.reverse.map FlexItem.id =
      round.seen.reverse.map FlexItem.id ++ items.map FlexItem.id := by
  induction items generalizing round with
  | nil => simp
  | cons item items ih =>
    rw [List.foldl_cons, ih, FreezeRound.step]
    split <;> simp

theorem freeze_ids (fuel : Nat) (items : List (FlexItem α)) (space : Space α) (rounds : Nat) :
    (freeze fuel items space rounds).items.map FlexItem.id = items.map FlexItem.id := by
  have hround := freezeRound_ids items ⟨space, 0, false, []⟩
  induction fuel generalizing items space rounds with
  | zero =>
    unfold freeze
    simpa using hround
  | succ fuel ih =>
    unfold freeze
    dsimp only
    split
    · rw [ih _ _ _ (freezeRound_ids _ _)]
      simpa using hround
    · simpa using hround

def frozenItems (c : Container α) (innerMain : Extent α) (line : Line α) (p : Pass α) : Frozen α :=
  let items := line.items.map fun id => c.flexItem innerMain id (p.node id)
  freeze items.length items line.space 0

theorem frozenItems_ids (c : Container α) (innerMain : Extent α) (line : Line α) (p : Pass α) :
    (frozenItems c innerMain line p).items.map FlexItem.id = line.items := by
  rw [frozenItems, freeze_ids, List.map_map]
  exact List.map_id _

/-- Lays out the items of a line, whose lengths are frozen. -/
def layFrozen (visit : Visitor α) (c : Container α) (innerMain : Extent α) (overflows : Bool)
    (frozen : Frozen α) (p : Pass α) : α × Pass α :=
  frozen.items.foldl (layItem visit c innerMain overflows frozen.space)
    (0, p.count fun s => { s with maxFlexIterations := max s.maxFlexIterations frozen.rounds })

theorem flexLine_pass (visit : Visitor α) (c : Container α) (innerMain : Extent α)
    (overflows : Bool) (line : Line α) (p : Pass α) :
    (p.flexLine visit c innerMain overflows line).2 =
      (layFrozen visit c innerMain overflows (frozenItems c innerMain line p) p).2 :=
  rfl

theorem flexLine_works (innerMain : Extent α) (overflows : Bool) {line : Line α}
    (hxs : ∀ x ∈ line.items, x ∈ kids) :
    Works visit c.id (Upkeep false kids) p (p.flexLine visit c innerMain overflows line).2 := by
  have hids := frozenItems_ids c innerMain line p
  rw [flexLine_pass]
  generalize frozenItems c innerMain line p = frozen at hids ⊢
  have hcount : Works visit c.id (Upkeep false kids) p (p.count fun s => { s with
      maxFlexIterations := max s.maxFlexIterations frozen.rounds }) :=
    Does.works (.count p fun _ => Nat.le_refl _) trivial
  refine hcount.trans (foldl_works (s := (0, _)) Prod.snd frozen.items fun s item hi _ => ?_)
  exact layItem_works innerMain overflows _ (hxs _ (hids ▸ List.mem_map_of_mem hi))

theorem baselineWithin_works (fuel : Nat) (h : P .report) :
    Works visit id P p (baselineWithin fuel x p).2 := by
  induction fuel generalizing x with
  | zero => exact .refl p
  | succ fuel ih =>
    have hlog : ∀ (q : Pass α) config level hasNode message, Works visit id P q
        { q with tree := q.tree.log config level hasNode message } := by
      intro q config level hasNode message
      unfold Tree.log
      split
      · exact Does.works (.tell q rfl) h
      · exact .refl q
    rw [baselineWithin]
    dsimp only
    split
    · split
      · exact (Does.works (.tell p (by rfl)) h).trans (hlog _ _ _ _ _)
      · exact Does.works (.tell p rfl) h
    · split
      · exact ih
      · exact .refl p

theorem placeItemMain_works (plan : JustifyPlan α) {s : JustifyState α} (hplace : P (.place x))
    (hreport : P .report) : Works visit id P s.pass (placeItemMain c plan s x).pass := by
  have hshift : ∀ f : α → α, Works visit id P s.pass (if c.performLayout then
      s.pass.shiftBy x c.mainAxis.leading f else s.pass) :=
    fun f => ite_works (shiftBy_works _ f hplace) (.refl _)
  unfold placeItemMain
  dsimp only
  split
  · exact hshift _
  · split
    · exact (hshift _).trans (baselineWithin_works _ hreport)
    · exact hshift _

theorem placeChildMain_works (plan : JustifyPlan α) {s : JustifyState α} (hplace : P (.place x))
    (hreport : P .report) : Works visit id P s.pass (placeChildMain c plan s x).pass := by
  unfold placeChildMain
  dsimp only
  split
  · exact .refl _
  split
  · exact ite_works (.refl _) (ite_works (setPosition_works _ _ hplace) (shiftBy_works _ _ hplace))
  · exact placeItemMain_works plan hplace hreport

theorem justifyLine_works (mainMode : MeasureMode) (innerMain : Extent α) (line : Line α)
    (hplace : ∀ x ∈ children, P (.place x)) (hreport : P .report) :
    Works visit id P p (p.justifyLine c mainMode innerMain children line).2 :=
  foldl_works (s := ⟨_, 0, 0, 0, p⟩) JustifyState.pass children fun _ x hx _ =>
    placeChildMain_works _ (hplace x hx) hreport

theorem placeChildCross_works (plan : CrossPlan α) (hx : x ∈ kids) :
    Works visit id (Upkeep false kids) p (p.placeChildCross visit c plan x) := by
  unfold placeChildCross
  dsimp only
  split
  · exact .refl p
  split
  · exact setPosition_works _ _ hx
  · unfold placeItemCross
    exact (ite_works (Does.works (.ask p x _) ⟨hx, nofun⟩) (.refl p)).trans (shiftBy_works _ _ hx)

theorem alignLine_works (plan : CrossPlan α) (hxs : ∀ x ∈ children, x ∈ kids) :
    Works visit id (Upkeep false kids) p (p.alignLine visit c plan children) :=
  foldl_works (fun q => q) children fun _ x hx _ => placeChildCross_works plan (hxs x hx)

theorem extendLine_works (e : LineExtent α) (hreport : P .report) :
    Works visit id P p (p.extendLine c x e).2 := by
  unfold extendLine
  dsimp only
  split
  · exact baselineWithin_works _ hreport
  · exact .refl p

theorem measureLine_works (number : Nat) (children : List NodeId) (e : LineExtent α)
    (length : Nat) (hreport : P .report) :
    Works visit id P p (p.measureLine c number children e length).2 := by
  induction children generalizing e length p with
  | nil => exact .refl p
  | cons x rest ih =>
    rw [measureLine]
    dsimp only
    split
    · split
      · exact .refl p
      · exact (extendLine_works e hreport).trans (ih _ _)
    · exact ih _ _

theorem alignInLine_works (lead : α) (e : LineExtent α) (hx : x ∈ kids) :
    Works visit id (Upkeep true kids) p (p.alignInLine visit c lead e x) := by
  unfold alignInLine
  dsimp only
  split
  · exact .refl p
  split
  · exact setPosition_works _ _ hx
  · exact setPosition_works _ _ hx
  · exact setPosition_works _ _ hx
  · exact (setPosition_works _ _ hx).trans (ite_works (Does.works (.ask _ x _) ⟨hx, fun _ => rfl⟩)
      (.refl _))
  · exact (baselineWithin_works p.depth trivial).trans (setPosition_works _ _ hx)
  all_goals exact .refl p

/-- What is done about one line when lines are spread: how many children it has, where the next one
starts, and what becomes of the pass. -/
def alignFront (visit : Visitor α) (c : Container α) (extra : α) (number : Nat)
    (children : List NodeId) (lead : α) (p : Pass α) : (Nat × α) × Pass α :=
  let measured := p.measureLine c number children ⟨0, 0, 0⟩ 0
  let e := { measured.1.1 with height := measured.1.1.height + extra }
  ((measured.1.2, lead + e.height),
    (children.take measured.1.2).foldl (alignInLine visit c lead e) measured.2)

theorem alignLines_succ (visit : Visitor α) (c : Container α) (extra : α) (count number : Nat)
    (children : List NodeId) (lead : α) (p : Pass α) :
    p.alignLines visit c extra (count + 1) number children lead =
      (p.alignFront visit c extra number children lead).2.alignLines visit c extra count
        (number + 1) (children.drop (p.alignFront visit c extra number children lead).1.1)
        (p.alignFront visit c extra number children lead).1.2 :=
  rfl

theorem alignFront_works (extra : α) (number : Nat) (lead : α) (hxs : ∀ x ∈ children, x ∈ kids) :
    Works visit id (Upkeep true kids) p (p.alignFront visit c extra number children lead).2 :=
  (measureLine_works number children _ 0 trivial).trans (foldl_works (fun q => q) _
    fun _ x hx _ => alignInLine_works _ _ (hxs x (List.mem_of_mem_take hx)))

theorem alignLines_works (extra : α) (count number : Nat) (lead : α)
    (hxs : ∀ x ∈ children, x ∈ kids) :
    Works visit id (Upkeep true kids) p
      (p.alignLines visit c extra count number children lead) := by
  induction count generalizing number children lead p with
  | zero => exact .refl p
  | succ count ih =>
    rw [alignLines_succ]
    exact (alignFront_works extra number lead hxs).trans
      (ih _ _ fun x hx => hxs x (List.mem_of_mem_drop hx))

theorem setPosition?_works (side : Side) (a : Option α) (hplace : P (.place x)) :
    Works visit id P p (p.setPosition? x side a) := by
  cases a with
  | none => exact .refl p
  | some a => exact setPosition_works side a hplace

theorem placeAbsolute_works (hplace : P (.place x)) :
    Works visit id P p (p.placeAbsolute c x) :=
  (setPosition?_works _ _ hplace).trans (setPosition?_works _ _ hplace)

theorem sizeAbsolute_works (widthMode : MeasureMode) (hask : ∀ r, P (.ask x r)) :
    Works visit id P p (p.sizeAbsolute visit c widthMode x).2 := by
  unfold sizeAbsolute
  dsimp only
  split
  · exact Does.works (.ask p x _) (hask _)
  · exact .refl p

theorem layAbsolute_works (widthMode : MeasureMode) (hplace : P (.place x))
    (hask : ∀ r, P (.ask x r)) : Works visit id P p (p.layAbsolute visit c widthMode x) :=
  (sizeAbsolute_works widthMode hask).trans
    ((Does.works (.ask _ x _) (hask _)).trans (placeAbsolute_works hplace))

def flexCollected (visit : Visitor α) (c : Container α) (plan : LinesPlan α) (innerMain : Extent α)
    (line : Line α) (p : Pass α) : (Line α × Extent α) × Pass α :=
  let legacy := (p.node c.id).config.legacyStretch
  let span := Container.lineSpan plan innerMain line.consumed
  let q := p.updateGeometryIf (span.byContent && legacy) c.id fun g =>
    { g with usedLegacyStretch := true }
  let free := Container.freeSpace span.innerMain (span.byContent && !legacy) line.consumed
  let line := { line with space := { line.space with free := free } }
  let flexed := if !c.performLayout && c.crossMode == .exactly then (line, q)
    else q.flexLine visit c span.innerMain plan.overflows line
  let clips := (flexed.2.node c.id).style.overflow != .visible
  ((flexed.1, span.innerMain), flexed.2.updateGeometryIf (clips && flexed.1.space.free < 0) c.id
    fun g => { g with hadOverflow := true })

theorem flexFront_eq (visit : Visitor α) (c : Container α) (plan : LinesPlan α)
    (children : List NodeId) (s : LinesState α) :
    flexFront visit c plan children s = flexCollected visit c plan s.innerMain
      (s.pass.collectLine c s.innerMain children s.count).1
      (s.pass.collectLine c s.innerMain children s.count).2 :=
  rfl

theorem flexCollected_line (visit : Visitor α) (c : Container α) (plan : LinesPlan α)
    (innerMain : Extent α) (line : Line α) (p : Pass α) :
    (flexCollected visit c plan innerMain line p).1.1.items = line.items ∧
      (flexCollected visit c plan innerMain line p).1.1.length = line.length := by
  unfold flexCollected
  dsimp only
  split <;> exact ⟨rfl, rfl⟩

theorem overrun_works (b : Bool) (h : P .note) :
    Works visit id P p (p.updateGeometryIf ((p.node id).style.overflow != .visible && b) id fun g =>
      { g with hadOverflow := true }) := by
  unfold updateGeometryIf
  split
  · exact Does.works (.overrun p (Bool.and_eq_true_iff.mp ‹_›).1) h
  · exact .refl p

theorem flexCollected_works (plan : LinesPlan α) (innerMain : Extent α) {line : Line α}
    (hxs : ∀ x ∈ line.items, x ∈ kids) :
    Works visit c.id (Upkeep false kids) p (flexCollected visit c plan innerMain line p).2 := by
  have hlegacy : ∀ b, Works visit c.id (Upkeep false kids) p (p.updateGeometryIf b c.id fun g =>
      { g with usedLegacyStretch := true }) := fun b =>
    ite_works (Does.works (.note p (fun _ => ⟨rfl, rfl, rfl⟩) fun _ h => h) trivial) (.refl p)
  unfold flexCollected
  dsimp only
  refine Works.trans ?_ (overrun_works _ trivial)
  split
  · exact hlegacy _
  · exact (hlegacy _).trans (flexLine_works _ _ hxs)

def placeFlexed (visit : Visitor α) (c : Container α) (plan : LinesPlan α) (children : List NodeId)
    (s : LinesState α) (line : Line α) (innerMain : Extent α) (p : Pass α) : Nat × LinesState α :=
  let lineChildren := children.take line.length
  let justified := p.justifyLine c plan.mainMode innerMain lineChildren line
  let n := justified.2.node c.id
  let line := justified.1
  let room : Extent α :=
    if c.crossMode == .exactly then c.innerCross
    else .of (c.boundCross n plan.frameCross line.crossSize)
  let crossSize := c.boundCross n plan.frameCross
    (if n.style.flexWrap == .noWrap && c.crossMode == .exactly then
        c.innerCross.getD line.crossSize
      else line.crossSize)
  (line.length,
    { innerMain := innerMain
      count := s.count + 1
      totalCross := s.totalCross + crossSize
      maxMain := Scalar.max s.maxMain line.mainSize
      pass := if c.performLayout then
          justified.2.alignLine visit c
            ⟨innerMain, room, crossSize, s.totalCross, plan.leadingFrameCross⟩ lineChildren
        else justified.2 })

theorem layLine_eq (visit : Visitor α) (c : Container α) (plan : LinesPlan α)
    (children : List NodeId) (s : LinesState α) :
    layLine visit c plan children s = placeFlexed visit c plan children s
      (flexFront visit c plan children s).1.1 (flexFront visit c plan children s).1.2
      (flexFront visit c plan children s).2 := by
  unfold layLine placeFlexed
  rcases flexFront visit c plan children s with ⟨⟨line, innerMain⟩, p⟩
  rfl

theorem layLine_length (visit : Visitor α) (c : Container α) (plan : LinesPlan α)
    (children : List NodeId) (s : LinesState α) :
    (layLine visit c plan children s).1 =
      (s.pass.collectLine c s.innerMain children s.count).1.length := by
  rw [layLine_eq, flexFront_eq]
  exact (flexCollected_line visit c plan s.innerMain _ _).2

theorem placeFlexed_works (plan : LinesPlan α) (s : LinesState α) (line : Line α)
    (innerMain : Extent α) (hxs : ∀ x ∈ children.take line.length, x ∈ kids) :
    Works visit id (Upkeep false kids) p
      (placeFlexed visit c plan children s line innerMain p).2.pass :=
  (justifyLine_works plan.mainMode innerMain line hxs trivial).trans
    (ite_works (alignLine_works _ hxs) (.refl _))

theorem layLine_works (plan : LinesPlan α)
    (hxs : ∀ x ∈ children.take (layLine visit c plan children s).1, x ∈ kids) :
    Works visit c.id (About kids) s.pass (layLine visit c plan children s).2.pass := by
  rw [layLine_length] at hxs
  have hitems : ∀ x ∈ (s.pass.collectLine c s.innerMain children s.count).1.items, x ∈ kids := by
    intro x hx
    rw [(s.pass.collectLine_cut c s.innerMain children s.count).items] at hx
    exact hxs x (List.mem_filter.mp hx).1
  rw [layLine_eq, flexFront_eq]
  refine (collectLine_works s.innerMain s.count hitems).trans
    ((flexCollected_works plan _ hitems).trans (placeFlexed_works plan s _ _ ?_)).about
  rwa [(flexCollected_line visit c plan s.innerMain _ _).2]

theorem layLines_cons (visit : Visitor α) (plan : LinesPlan α) (fuel : Nat) (x : NodeId)
    (xs : List NodeId) (s : LinesState α) :
    layLines visit c plan (fuel + 1) (x :: xs) s =
      layLines visit c plan fuel ((x :: xs).drop (layLine visit c plan (x :: xs) s).1)
        (layLine visit c plan (x :: xs) s).2 :=
  rfl

theorem layLines_works (plan : LinesPlan α) (fuel : Nat) (hxs : ∀ x ∈ children, x ∈ kids) :
    Works visit c.id (About kids) s.pass (layLines visit c plan fuel children s).pass := by
  induction fuel generalizing children s with
  | zero => exact .refl _
  | succ fuel ih =>
    cases children with
    | nil => exact .refl _
    | cons child rest =>
      rw [layLines_cons]
      exact (layLine_works plan fun x hx => hxs x (List.mem_of_mem_take hx)).trans
        (ih fun x hx => hxs x (List.mem_of_mem_drop hx))

theorem spreadLines_works (leadingFrame : α) :
    Works visit id (Upkeep true (s.pass.children c.id)) s.pass
      (spreadLines visit c leadingFrame s) :=
  ite_works (alignLines_works _ _ _ _ fun _ hx => hx) (.refl _)

theorem reverseLines_works (crossSize : α) (hplace : ∀ x ∈ p.children c.id, P (.place x)) :
    Works visit id P p (p.reverseLines c crossSize) :=
  foldl_works (fun q => q) _ fun _ x hx _ =>
    ite_works (shiftBy_works _ _ (hplace x hx)) (.refl _)

theorem setTrailings_works (hplace : ∀ x ∈ p.children c.id, P (.place x)) :
    Works visit id P p (p.setTrailings c) := by
  refine ite_works (foldl_works (fun q => q) _ fun q x hx _ => ?_) (.refl p)
  have hset : ∀ axis q, Works visit id P q (setTrailing c axis q x) := fun _ _ =>
    setPosition_works _ _ (hplace x hx)
  exact ite_works (.refl q) ((ite_works (hset c.mainAxis q)
    (.refl q)).trans (ite_works (hset _ _) (.refl _)))

theorem placeRest_labors (mainMode : MeasureMode) (crossSize : α) (hplace : ∀ x, P (.place x))
    (hask : ∀ x r, P (.ask x r)) :
    Labors visit c.id P p (p.placeRest visit c mainMode crossSize) := by
  have hrev : Labors visit c.id P p
      (if (p.node c.id).style.flexWrap == .wrapReverse then p.reverseLines c crossSize else p) :=
    (ite_works (reverseLines_works _ fun x hx => ⟨hplace x, hx⟩) (.refl p)).labors
  unfold placeRest
  dsimp only
  generalize (if (p.node c.id).style.flexWrap == .wrapReverse then
    p.reverseLines c crossSize else p) = q at hrev ⊢
  have habs : Labors visit c.id P q ((q.children c.id).foldl (fun p child =>
      if (p.node child).isAbsolute then
        p.layAbsolute visit c (if c.isRow then mainMode else c.crossMode) child else p) q) :=
    (foldl_works (fun q => q) _ fun u x hx _ => ite_works
      (layAbsolute_works _ ⟨hplace x, hx⟩ fun r => ⟨hask x r, hx⟩) (.refl u)).labors
  exact (hrev.trans habs).trans (setTrailings_works fun x hx => ⟨hplace x, hx⟩).labors

theorem setFinal_works (width height : α) (h : P .note) :
    Works visit c.id P p (if c.isRow then p.setMeasured c.id width height
      else p.setMeasured c.id height width) :=
  ite_works (Does.works (.note p (fun _ => ⟨rfl, rfl, rfl⟩) fun _ h => h) h)
    (Does.works (.note p (fun _ => ⟨rfl, rfl, rfl⟩) fun _ h => h) h)

theorem layLines_labors (plan : LinesPlan α) :
    Labors visit c.id (fun _ => True) p (layLines visit c plan (p.children c.id).length
      (p.children c.id) ⟨c.innerMain, 0, 0, 0, p⟩).pass :=
  (layLines_works (s := ⟨c.innerMain, 0, 0, 0, p⟩) plan _ fun _ hx => hx).labors_about

theorem layLinesAndSize_labors (plan : LinesPlan α) (r : Request α) :
    Labors visit c.id (fun _ => True) p (p.layLinesAndSize visit c plan r) := by
  have hlines : Labors visit c.id (fun _ => True) p _ := layLines_labors plan
  unfold layLinesAndSize
  dsimp only
  generalize layLines visit c plan _ _ _ = s at hlines ⊢
  have hspread := hlines.trans (spreadLines_works plan.leadingFrameCross).about.labors_about
  generalize spreadLines visit c plan.leadingFrameCross s = q at hspread ⊢
  generalize c.finalSizes _ plan r s.innerMain s.maxMain s.totalCross = size
  refine hspread.trans ((setFinal_works size.1 size.2 trivial).labors_about.trans ?_)
  by_cases hp : c.performLayout = true
  · rw [if_pos hp]
    exact placeRest_labors _ _ (fun _ => trivial) fun _ _ => trivial
  · rw [if_neg hp]

theorem layContainer_labors (direction : Direction) (r : Request α) :
    Labors visit id (fun _ => True) (p.ownChildren id) (p.layContainer visit id direction r) := by
  have hclear : Works visit id (About ((p.ownChildren id).children id)) (p.ownChildren id)
      ((p.ownChildren id).updateGeometry id fun g => { g with hadOverflow := false }) :=
    Does.works (.note _ (fun _ => ⟨rfl, rfl, rfl⟩) fun _ h => by cases h) trivial
  unfold layContainer
  dsimp only
  generalize (p.ownChildren id).updateGeometry id (fun g => { g with hadOverflow := false }) = q
    at hclear ⊢
  generalize hc : Container.ofRequest (q.node id) id direction r = c
  obtain rfl : c.id = id := by rw [← hc]; rfl
  exact (hclear.labors_about.trans (basisOfChildren_works c).labors_about).trans
    (layLinesAndSize_labors _ r)

/-- The pass that has counted a node and has its edges on record. -/
def edged (id : NodeId) (r : Request α) (p : Pass α) : Pass α :=
  (p.count fun s => if r.performLayout then { s with layouts := s.layouts + 1 }
    else { s with measures := s.measures + 1 }).redraw id fun n =>
      n.withBoxEdges ((p.node id).resolveDirection r.ownerDirection) r.ownerWidth

/-- Lays out what is inside the edges of a node. -/
def layInside (visit : Visitor α) (id : NodeId) (direction : Direction) (r : Request α)
    (p : Pass α) : Pass α :=
  match (p.node id).measure with
  | some measure => p.measureLeaf id measure r
  | none =>
    if (p.node id).children.isEmpty then
      p.setMeasured id ((p.node id).emptySize r).width ((p.node id).emptySize r).height
    else if !r.performLayout && r.isSettled then
      p.setMeasured id ((p.node id).settledSize r).width ((p.node id).settledSize r).height
    else p.layContainer visit id direction r

theorem layNode_eq (visit : Visitor α) (id : NodeId) (r : Request α) (p : Pass α) :
    p.layNode visit id r = (p.edged id r).layInside visit id
      ((p.node id).resolveDirection r.ownerDirection) r := rfl

end

end Pass

end Flexbox
