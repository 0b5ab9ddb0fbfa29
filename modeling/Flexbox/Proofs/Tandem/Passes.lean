import Flexbox.Proofs.Tandem.Nodes
import Flexbox.Proofs.Movers
import Flexbox.Proofs.Seclusion
import Mathlib.Data.Set.Insert

namespace Flexbox

/-- What two passes can agree on about a node. -/
inductive Fact
  /-- The preferred size is in line with the style. -/
  | sized (id : NodeId)
  /-- It was put where its container starts. -/
  | started (id : NodeId)
  | based (id : NodeId)
  | lined (id : NodeId)
  | measured (id : NodeId)
  /-- It was hidden, and all below it was cleared away. -/
  | cleared (id : NodeId)

namespace Pass

section

variable {α : Type} [Scalar α] {S : Set NodeId} {p q : Pass α} {x z : NodeId}

theorem Step.childrenOf (hstep : Step S p q) (hs : p.tree.Sound) (hz : p.tree.Live z)
    (ho : ∀ c ∈ p.tree.childrenOf z, p.tree.ownerOf c = some z) :
    q.tree.childrenOf z = p.tree.childrenOf z ∧
      ∀ c ∈ p.tree.childrenOf z, q.tree.ownerOf c = some z := by
  cases hstep with
  | update _ hf =>
    rw [Pass.update, Tree.childrenOf_update fun n _ => (hf n).links.children,
      Tree.ownerOf_update fun n _ => (hf n).links.owner]
    exact ⟨rfl, ho⟩
  | @own x _ hl =>
    by_cases hxz : z = x
    · subst hxz
      rw [ownChildren_owned hs hl ho]
      exact ⟨rfl, ho⟩
    · obtain ⟨s, he, -, hp⟩ := ownChildren_run hs hl
      rw [he]
      refine ⟨hp.childrenOf_other hz hxz, fun c hc => ?_⟩
      rw [hp.ownerOf (hs.arena.accounted.live hc), ho c hc]
  | tell | record | count => exact ⟨rfl, ho⟩

theorem Moves.childrenOf (hm : Moves S p q) (hs : p.tree.Sound) (hz : p.tree.Live z)
    (ho : ∀ c ∈ p.tree.childrenOf z, p.tree.ownerOf c = some z) :
    q.tree.childrenOf z = p.tree.childrenOf z ∧
      ∀ c ∈ p.tree.childrenOf z, q.tree.ownerOf c = some z := by
  induction hm with
  | refl => exact ⟨rfl, ho⟩
  | tail hm hstep ih =>
    obtain ⟨hlist, howner⟩ := ih
    have hnext := hstep.childrenOf (Moves.sound hm hs) (Moves.live hm hs hz) (by rwa [hlist])
    rwa [hlist] at hnext

/-- The pass once it turns to the children of a container. -/
def enter (p : Pass α) (id : NodeId) : Pass α :=
  (p.ownChildren id).updateGeometry id fun g => { g with hadOverflow := false }

theorem layContainer_eq (visit : Visitor α) (id : NodeId) (direction : Direction) (r : Request α)
    (p : Pass α) :
    p.layContainer visit id direction r =
      let c := Container.ofRequest ((p.enter id).node id) id direction r
      let basis := (p.enter id).basisOfChildren visit c
      basis.2.layLinesAndSize visit c (c.linesPlan ((p.enter id).node id) basis.1) r :=
  rfl

theorem enter_moves (hz : p.tree.Live z) : Moves Set.univ p (p.enter z) :=
  (Step.own p (Set.mem_univ z) hz).moves.trans (updateGeometry_moves (Set.mem_univ z) _)

/-- A container that has all its children for itself. -/
structure Household (p : Pass α) (id : NodeId) : Prop extends Held Set.univ p id where
  owned : ∀ x ∈ p.tree.childrenOf id, p.tree.ownerOf x = some id

theorem Household.own (hs : p.tree.Sound) (hz : p.tree.Live z) : Household (p.ownChildren z) z := by
  refine ⟨(Ready.univ hs hz).admitted.own, ?_⟩
  obtain ⟨s, he, -, hp⟩ := ownChildren_run hs hz
  rw [he]
  intro x hx
  simpa [Tree.owns] using hp.owned x hx

section

variable {v : Visitor α} {P : Chore α → Prop} {xs : List NodeId} (h : Household p z)
  (hv : Mover Set.univ v)

include h

theorem Household.moves (hm : Moves Set.univ p q) : Household q z := by
  have hkept := hm.childrenOf h.sound h.live h.owned
  refine ⟨hm.held h.toHeld, ?_⟩
  rw [hkept.1]
  exact hkept.2

theorem Household.children (hm : Moves Set.univ p q) : q.children z = p.children z := by
  rw [children_eq h.live, children_eq (hm.live h.sound h.live),
    (hm.childrenOf h.sound h.live h.owned).1]

include hv

theorem Household.does (hw : Works v z (About (p.children z)) p q) : Moves Set.univ p q :=
  (Moves.conduct Set.univ).works (P := fun _ => True) hv h.toHeld
    (hw.mono fun _ ht => ⟨trivial, ht⟩)

theorem Household.on {u : Pass α} (hm : Moves Set.univ p q) (hxs : ∀ x ∈ xs, x ∈ p.children z)
    (hw : Works v z (About xs) q u) : Moves Set.univ p u :=
  hm.trans ((h.moves hm).does hv (hw.mono fun _ ht => ht.mono (h.children hm ▸ hxs)))

theorem Household.labors (hl : Labors v z P p q) :
    Works v z (fun t => P t ∧ About (p.children z) t) p q := by
  induction hl with
  | refl => exact .refl p
  | tail _ hw ih =>
    refine ih.trans ?_
    rwa [h.children (h.does hv (ih.mono fun _ ht => ht.2))] at hw

end

theorem Household.enter (hs : p.tree.Sound) (hz : p.tree.Live z) : Household (p.enter z) z :=
  (Household.own hs hz).moves (updateGeometry_moves (Set.mem_univ z) _)

omit [Scalar α] in
theorem hasBaselineChildren_turn {e : Bool} (hchildren : q.children x = p.children x)
    (hx : (q.node x).style = (p.node x).style.turn e)
    (h : ∀ y ∈ p.children x, (q.node y).style = (p.node y).style.turn e) :
    q.hasBaselineChildren x = p.hasBaselineChildren x := by
  have hany : ((q.node x).children.any fun y =>
      (q.node y).style.positionType == .relative && (q.node y).style.alignSelf == .baseline) =
      (p.node x).children.any fun y =>
        (p.node y).style.positionType == .relative && (p.node y).style.alignSelf == .baseline := by
    rw [show (q.node x).children = (p.node x).children from hchildren, Bool.eq_iff_iff,
      List.any_eq_true, List.any_eq_true]
    refine exists_congr fun y => and_congr_right fun hy => ?_
    rw [h y hy]
    cases e <;> rfl
  unfold hasBaselineChildren
  dsimp only
  rw [hany, hx]
  cases e <;> rfl

end

end Pass

open Pass

/-- Two passes that work on one container, or on it and on its image if `e`, from `base` on. -/
structure Pairing (α : Type) where
  e : Bool
  c : Container α
  base : Pass α
  visit : Visitor α
  visit' : Visitor α
  /-- The children that the second pass has, too. -/
  keeps : NodeId → Bool
  /-- The passes agree on these facts. -/
  Holds : Set Fact → Pass α → Pass α → Prop
  /-- The first pass can be followed no more. -/
  Loud : Pass α → Prop

namespace Pairing

variable {α : Type} (T : Pairing α)

abbrev c' : Container α := T.c.turn T.e

def kids : List NodeId := T.base.children T.c.id

def Kid (x : NodeId) : Prop := x ∈ T.kids ∧ T.keeps x = true

abbrev seen (xs : List NodeId) : List NodeId := xs.filter T.keeps

theorem seen_parts (xs : List NodeId) (n : Nat) :
    T.seen xs = T.seen (xs.take n) ++ T.seen (xs.drop n) := by
  rw [← List.filter_append, List.take_append_drop]

theorem take_seen (xs : List NodeId) (n : Nat) :
    (T.seen xs).take (T.seen (xs.take n)).length = T.seen (xs.take n) := by
  rw [T.seen_parts xs n, List.take_left]

theorem drop_seen (xs : List NodeId) (n : Nat) :
    (T.seen xs).drop (T.seen (xs.take n)).length = T.seen (xs.drop n) := by
  rw [T.seen_parts xs n, List.drop_left]

variable [Scalar α]

/-- The first pass does chores that are about the children. -/
abbrev Works (p q : Pass α) : Prop := Pass.Works T.visit T.c.id (About T.kids) p q

structure Sees (K : Set Fact) (p q : Pass α) : Prop where
  moves : Moves Set.univ T.base p
  holds : T.Holds K p q

/-- Both passes have gone on, and what they worked out on the way is the same. -/
structure Runs {β : Type} (K : Set Fact) (d d' : β) (p q : Pass α) : Prop where
  moves : Moves Set.univ T.base p
  agree : T.Loud p ∨ d' = d ∧ T.Holds K p q

/-- Both passes have gone on together with a result. -/
abbrev Ends {β : Type} (K : Set Fact) (r r' : β × Pass α) : Prop := T.Runs K r.1 r'.1 r.2 r'.2

abbrev Goes (K : Set Fact) (p q : Pass α) : Prop := T.Runs K () () p q

/-- A hidden child that the second pass can go without: what the container reads of all children is
the same. -/
structure Spares (x : NodeId) : Prop where
  hidden : (T.base.node x).isHidden = true
  margins : (T.base.node x).isAbsolute = true ∨
    (T.base.node x).hasAutoMargin T.c.mainAxis = false
  others : T.seen T.kids ≠ []
  lone : ∀ {K p q y}, T.Sees K p q → T.Kid y →
    (Container.loneFlexible ((T.seen T.kids).map fun x => (x, q.node x)) none == some y) =
      (Container.loneFlexible (T.kids.map fun x => (x, p.node x)) none == some y)
  level : ∀ {K p q}, T.Sees K p q →
    q.hasBaselineChildren T.c.id = p.hasBaselineChildren T.c.id
  aside : ∀ {K p p' q}, T.Sees K p q → Pass.Works T.visit T.c.id (Sole x) p p' →
    T.Loud p' ∨ T.Holds K p' q

end Pairing

/-- What two passes must be able to do so that they can go through a container together. -/
structure Tandem {α : Type} [Scalar α] (T : Pairing α) : Prop where
  mover : Mover Set.univ T.visit
  household : Household T.base T.c.id
  spares : ∀ {x}, x ∈ T.kids → T.keeps x = false → T.Spares x
  louder : ∀ {p q}, Moves Set.univ p q → T.Loud p → T.Loud q
  mono : ∀ {K L p q}, L ⊆ K → T.Holds K p q → T.Holds L p q
  parent : ∀ {K p q}, T.Sees K p q → (p.node T.c.id).Faces T.e (q.node T.c.id) ∧
    (p.node T.c.id).Level (q.node T.c.id)
  kid : ∀ {K p q x}, T.Sees K p q → T.Kid x → (p.node x).Faces T.e (q.node x) ∧
    (p.node x).Level (q.node x)
  listed : ∀ {K p q}, T.Sees K p q → q.children T.c.id = T.seen (p.children T.c.id)
  direction : ∀ {K p q}, T.Sees K p q →
    (q.node T.c.id).geometry.direction = (p.node T.c.id).geometry.direction.turn T.e
  size : ∀ {K p q x}, T.Sees K p q → T.Kid x → .sized x ∈ K →
    (q.node x).resolvedSize = (p.node x).resolvedSize
  basis : ∀ {K p q x}, T.Sees K p q → T.Kid x → .based x ∈ K →
    (q.node x).geometry.flexBasis = (p.node x).geometry.flexBasis
  line : ∀ {K p q x}, T.Sees K p q → T.Kid x → .lined x ∈ K → (q.node x).line = (p.node x).line
  measure : ∀ {K p q x}, T.Sees K p q → x = T.c.id ∨ T.Kid x → .measured x ∈ K →
    (q.node x).geometry.measured = (p.node x).geometry.measured
  stale : ∀ {K p q x}, T.Sees K p q → T.Kid x →
    Container.basisIsStale (q.node x) q.generation = Container.basisIsStale (p.node x) p.generation
  kept : ∀ {K p q x}, T.Sees K p q → T.Kid x →
    Container.basisIsStale (p.node x) p.generation = false → T.Holds (insert (.based x) K) p q
  count : ∀ {K p q}, T.Sees K p q → ∀ rounds, T.Holds K
    (p.count fun s => { s with maxFlexIterations := max s.maxFlexIterations rounds })
    (q.count fun s => { s with maxFlexIterations := max s.maxFlexIterations rounds })
  overflow : ∀ {K p q}, T.Sees K p q → T.Holds K
    (p.updateGeometry T.c.id fun g => { g with hadOverflow := true })
    (q.updateGeometry T.c.id fun g => { g with hadOverflow := true })
  legacy : ∀ {K p q}, T.Sees K p q → T.Holds K
    (p.updateGeometry T.c.id fun g => { g with usedLegacyStretch := true })
    (q.updateGeometry T.c.id fun g => { g with usedLegacyStretch := true })
  heed : ∀ {K p q x}, T.Sees K p q → T.Kid x → T.Holds K
    (p.updateGeometryIf (p.node x).geometry.hadOverflow T.c.id fun g =>
      { g with hadOverflow := true })
    (q.updateGeometryIf (q.node x).geometry.hadOverflow T.c.id fun g =>
      { g with hadOverflow := true })
  setMeasured : ∀ {K p q}, T.Sees K p q → ∀ width height, T.Holds (insert (.measured T.c.id) K)
    (p.setMeasured T.c.id width height) (q.setMeasured T.c.id width height)
  resolve : ∀ {K p q x}, T.Sees K p q → T.Kid x → T.Holds (insert (.sized x) K)
    (p.update x Node.resolveSize) (q.update x Node.resolveSize)
  clear : ∀ {K p q x}, T.Sees K p q → T.Kid x → T.Loud (zeroOut p.depth x p) ∨
    T.Holds (K ∪ {.started x, .measured x, .cleared x}) (zeroOut p.depth x p) (zeroOut q.depth x q)
  start : ∀ {K p q x}, T.Sees K p q → T.Kid x → T.c.performLayout = true →
    T.Holds (insert (.started x) K) (p.placeAtStart T.c x) (q.placeAtStart T.c' x)
  setBasis : ∀ {K p q x}, T.Sees K p q → T.Kid x → ∀ basis,
    T.Holds (insert (.based x) K) (p.setBasis x basis) (q.setBasis x basis)
  setLine : ∀ {K p q x}, T.Sees K p q → T.Kid x → ∀ number, T.Holds (insert (.lined x) K)
    (p.update x fun n => { n with line := number }) (q.update x fun n => { n with line := number })
  shift : ∀ {K p q x}, T.Sees K p q → T.Kid x → ∀ side f,
    T.Holds K (p.shiftBy x side f) (q.shiftBy x (side.turn T.e) f)
  setTrailing : ∀ {K p q x axis}, T.Sees K p q → T.Kid x →
    axis = T.c.mainAxis ∨ axis = T.c.crossAxis → .started x ∈ K → .measured x ∈ K →
    .measured T.c.id ∈ K → T.Holds K (if axis.isReverse then p.setTrailing T.c axis x else p)
      (if (axis.turn T.e).isReverse then q.setTrailing T.c' (axis.turn T.e) x else q)
  baseline : ∀ {K p q x}, T.Sees K p q → T.Kid x →
    T.base.hasBaselineChildren T.c.id = true ∨
      (T.base.node x).isInFlow = true ∧
        (T.base.node T.c.id).alignOf (T.base.node x) = .baseline →
    (q.baseline x).1 = (p.baseline x).1 ∧ T.Holds K (p.baseline x).2 (q.baseline x).2
  ask : ∀ {K p q x} {r : Request α}, T.Sees K p q → T.Kid x →
    r.ownerDirection = T.c.direction ∨ r.ownerDirection = (p.node T.c.id).geometry.direction →
    T.Loud (T.visit x r p) ∨
      T.Holds (insert (.measured x) K) (T.visit x r p) (T.visit' x (r.turn T.e) q)

namespace Pairing

variable {α β γ : Type} [Scalar α] {T : Pairing α} {K L : Set Fact} {p q p' q' : Pass α}
  {x : NodeId} {d d' : β} {f f' : γ}

theorem Sees.runs (h : T.Sees K p q) (d : β) : T.Runs K d d p q :=
  ⟨h.moves, Or.inr ⟨rfl, h.holds⟩⟩

theorem Runs.with (h : T.Runs K d d' p q) (hd : d' = d → f' = f) : T.Runs K f f' p q :=
  ⟨h.moves, h.agree.imp id (And.imp hd id)⟩

theorem Sees.on (h : T.Sees K p q) (hk : T.Holds L p' q') (hm : Moves Set.univ p p') :
    T.Sees L p' q' :=
  ⟨h.moves.trans hm, hk⟩

theorem Sees.noteIf {f : Geometry α → Geometry α} (h : T.Sees K p q) (condition : Bool)
    (hk : T.Holds K (p.updateGeometry T.c.id f) (q.updateGeometry T.c.id f)) :
    T.Sees K (p.updateGeometryIf condition T.c.id f) (q.updateGeometryIf condition T.c.id f) := by
  cases condition with
  | true => exact h.on hk (updateGeometry_moves (Set.mem_univ _) f)
  | false => exact h

theorem Sees.goes (h : T.Sees K p q) (hk : T.Loud p' ∨ T.Holds L p' q')
    (hm : Moves Set.univ p p') : T.Goes L p' q' :=
  ⟨h.moves.trans hm, hk.imp id fun hk => ⟨rfl, hk⟩⟩

end Pairing

namespace Tandem

variable {α β γ : Type} [Scalar α] {T : Pairing α} (hT : Tandem T) {K L : Set Fact}
  {p q p' q' : Pass α} {x : NodeId} {d d' : β} {f f' : γ}

include hT

section

variable (hm : Moves Set.univ T.base p)

include hm

theorem children : p.children T.c.id = T.kids :=
  hT.household.children hm

theorem chores (hw : Pass.Works T.visit T.c.id (About (p.children T.c.id)) p p') :
    T.Works p p' := by
  rwa [hT.children hm] at hw

theorem moves (hw : T.Works p p') : Moves Set.univ p p' :=
  (hT.household.moves hm).does hT.mover (by rwa [hT.children hm])

theorem labors {P : Chore α → Prop} (hl : Labors T.visit T.c.id P p p') : T.Works p p' :=
  hT.chores hm (((hT.household.moves hm).labors hT.mover hl).mono fun _ ht => ht.2)

end

theorem weaken (h : T.Runs K d d' p q) (hL : L ⊆ K) : T.Runs L d d' p q :=
  ⟨h.moves, h.agree.imp id (And.imp id (hT.mono hL))⟩

/-- What comes after is done in tandem, unless it is too loud already. -/
theorem follow (h : T.Runs K d d' p q) (hw : T.Works p p')
    (hk : d' = d → T.Sees K p q → T.Runs L f f' p' q') : T.Runs L f f' p' q' := by
  have hm := hT.moves h.moves hw
  rcases h.agree with hl | ⟨hd, hh⟩
  · exact ⟨h.moves.trans hm, Or.inl (hT.louder hm hl)⟩
  · exact hk hd ⟨h.moves, hh⟩

section

variable {σ : Type} (pass : σ → Pass α) (data : σ → β) (F : γ → Set Fact) {f g : σ → γ → σ}
  {l : List γ} {s t : σ} (h : T.Sees K (pass s) (pass t)) (hd : data t = data s)
  (hw : ∀ s, ∀ x ∈ l, T.Works (pass s) (pass (f s x)))

include h hd hw

/-- Two walks over a list, seen through the pass and the other data that their states hold. What is
not to `keep` is passed by in the second walk. -/
theorem foldl_filter (keep : γ → Bool)
    (hstep : ∀ s t, ∀ x ∈ l, keep x = true → ∀ L, K ⊆ L → data t = data s →
      T.Sees L (pass s) (pass t) →
      T.Runs (L ∪ F x) (data (f s x)) (data (g t x)) (pass (f s x)) (pass (g t x)))
    (hskip : ∀ s t, ∀ x ∈ l, keep x = false → ∀ L, data t = data s → T.Sees L (pass s) (pass t) →
      T.Runs L (data (f s x)) (data t) (pass (f s x)) (pass t)) :
    T.Runs (K ∪ {a | ∃ x ∈ l, keep x = true ∧ a ∈ F x}) (data (l.foldl f s))
      (data ((l.filter keep).foldl g t)) (pass (l.foldl f s))
      (pass ((l.filter keep).foldl g t)) := by
  induction l generalizing s t K with
  | nil =>
    refine hT.weaken ⟨h.moves, Or.inr ⟨hd, h.holds⟩⟩ fun a ha => ?_
    simpa using ha
  | cons x l ih =>
    have hw := fun r y hy => hw r y (List.mem_cons_of_mem x hy)
    have hfold : T.Works (pass (f s x)) (pass (l.foldl f (f s x))) :=
      foldl_works pass l fun r y hy _ => hw r y hy
    have ih := fun {L : Set Fact} {s t} (hs : T.Sees L (pass s) (pass t)) hd (hL : K ⊆ L) =>
      ih hs hd hw (fun r t y hy hk M hM => hstep r t y (by simp [hy]) hk M (hL.trans hM))
        fun r t y hy => hskip r t y (by simp [hy])
    cases hkeep : keep x with
    | false =>
      rw [List.filter_cons_of_neg (by simp [hkeep])]
      refine hT.follow (hskip s t x (by simp) hkeep K hd h) hfold fun hd hs =>
        hT.weaken (ih hs hd subset_rfl) ?_
      rintro a (ha | ⟨y, hy, hk, ha⟩)
      · exact Or.inl ha
      rcases List.mem_cons.mp hy with rfl | hy
      · cases hkeep.symm.trans hk
      · exact Or.inr ⟨y, hy, hk, ha⟩
    | true =>
      rw [List.filter_cons_of_pos hkeep]
      refine hT.follow (hstep s t x (by simp) hkeep K subset_rfl hd h) hfold fun hd hs =>
        hT.weaken (ih hs hd Set.subset_union_left) ?_
      rintro a (ha | ⟨y, hy, hk, ha⟩)
      · exact Or.inl (Or.inl ha)
      rcases List.mem_cons.mp hy with rfl | hy
      · exact Or.inl (Or.inr ha)
      · exact Or.inr ⟨y, hy, hk, ha⟩

theorem foldl
    (hstep : ∀ s t, ∀ x ∈ l, ∀ L, K ⊆ L → data t = data s → T.Sees L (pass s) (pass t) →
      T.Runs (L ∪ F x) (data (f s x)) (data (g t x)) (pass (f s x)) (pass (g t x))) :
    T.Runs (K ∪ {a | ∃ x ∈ l, a ∈ F x}) (data (l.foldl f s)) (data (l.foldl g t))
      (pass (l.foldl f s)) (pass (l.foldl g t)) := by
  have hall := hT.foldl_filter pass data F h hd hw (fun _ => true)
    (fun s t x hx _ => hstep s t x hx) fun _ _ _ _ hno => nomatch hno
  rw [List.filter_true] at hall
  simpa using hall

end

/-- A walk over children that adds no facts. -/
theorem walk {f g : Pass α → NodeId → Pass α} {l : List NodeId} (h : T.Sees K p q)
    (hw : ∀ p, ∀ x ∈ l, T.Works p (f p x))
    (hstep : ∀ p q, ∀ x ∈ l, T.keeps x = true → ∀ L, K ⊆ L → T.Sees L p q →
      T.Goes L (f p x) (g q x))
    (hskip : ∀ p q, ∀ x ∈ l, T.keeps x = false → ∀ L, T.Sees L p q → T.Goes L (f p x) q) :
    T.Goes K (l.foldl f p) ((T.seen l).foldl g q) :=
  hT.weaken (hT.foldl_filter (fun p => p) (fun _ => ()) (fun _ => ∅) h rfl hw T.keeps
    (fun p q x hx hk L hL _ hs => by
      rw [Set.union_empty]
      exact hstep p q x hx hk L hL hs)
    fun p q x hx hk L _ hs => hskip p q x hx hk L hs) Set.subset_union_left

section

variable (hm : Moves Set.univ T.base p) (hx : x ∈ T.kids)

include hm hx

theorem admitted : Admitted Set.univ p x :=
  hm.admitted (hT.household.child hx)

theorem kid_style : (p.node x).style = (T.base.node x).style :=
  hm.style hT.household.sound (hT.household.child hx).live

theorem kid_kind : (p.node x).isHidden = (T.base.node x).isHidden ∧
    (p.node x).isAbsolute = (T.base.node x).isAbsolute ∧
    (p.node x).isInFlow = (T.base.node x).isInFlow :=
  hm.kind hT.household.sound (hT.household.child hx).live

theorem spared (hno : T.keeps x = false) :
    (p.node x).isHidden = true ∧ (p.node x).isInFlow = false := by
  have hhidden := (hT.spares hx hno).hidden
  rw [Node.isInFlow, (hT.kid_kind hm hx).1, hhidden]
  exact ⟨rfl, rfl⟩

end

theorem keeps_inFlow (hx : x ∈ T.kids) (hf : (T.base.node x).isInFlow = true) : T.Kid x := by
  refine ⟨hx, ?_⟩
  by_contra hno
  cases ((hT.spared (.refl _) hx (Bool.eq_false_iff.mpr hno)).2).symm.trans hf

theorem whole : (∃ x, T.Spares x) ∨ ∀ x ∈ T.kids, T.keeps x = true := by
  by_contra! hno
  obtain ⟨hnone, x, hx, hout⟩ := hno
  exact hnone x (hT.spares hx (Bool.eq_false_iff.mpr hout))

section

variable (h : T.Sees K p q)

include h

theorem children' : q.children T.c.id = T.seen T.kids := by
  rw [hT.listed h, hT.children h.moves]

theorem parent_style : (p.node T.c.id).style = (T.base.node T.c.id).style :=
  h.moves.style hT.household.sound hT.household.live

section

variable (hx : T.Kid x)

include hx

theorem isHidden :
    (p.node x).isHidden = (T.base.node x).isHidden ∧
      (q.node x).isHidden = (T.base.node x).isHidden := by
  rw [(hT.kid h hx).1.isHidden, (hT.kid_kind h.moves hx.1).1]
  exact ⟨rfl, rfl⟩

theorem isAbsolute :
    (p.node x).isAbsolute = (T.base.node x).isAbsolute ∧
      (q.node x).isAbsolute = (T.base.node x).isAbsolute := by
  rw [(hT.kid h hx).1.isAbsolute, (hT.kid_kind h.moves hx.1).2.1]
  exact ⟨rfl, rfl⟩

theorem isInFlow :
    (p.node x).isInFlow = (T.base.node x).isInFlow ∧
      (q.node x).isInFlow = (T.base.node x).isInFlow := by
  rw [(hT.kid h hx).1.isInFlow, (hT.kid_kind h.moves hx.1).2.2]
  exact ⟨rfl, rfl⟩

theorem loneFlexible :
    (Container.loneFlexible ((T.seen T.kids).map fun x => (x, q.node x)) none == some x) =
      (Container.loneFlexible (T.kids.map fun x => (x, p.node x)) none == some x) := by
  rcases hT.whole with ⟨y, hy⟩ | hall
  · exact hy.lone h hx
  · rw [Pairing.seen, List.filter_eq_self.mpr hall,
      Container.loneFlexible_turn fun x hx => (hT.kid h ⟨hx, hall x hx⟩).1]

end

theorem hasBaselineChildren :
    p.hasBaselineChildren T.c.id = T.base.hasBaselineChildren T.c.id ∧
      q.hasBaselineChildren T.c.id = T.base.hasBaselineChildren T.c.id := by
  have hp : p.hasBaselineChildren T.c.id = T.base.hasBaselineChildren T.c.id :=
    hasBaselineChildren_turn (e := false) (hT.children h.moves) (hT.parent_style h)
      fun x hx => hT.kid_style h.moves hx
  refine ⟨hp, ?_⟩
  rw [← hp]
  rcases hT.whole with ⟨y, hy⟩ | hall
  · exact hy.level h
  refine hasBaselineChildren_turn (e := T.e) ?_ (hT.parent h).1.style fun x hx => ?_
  · rw [hT.children' h, hT.children h.moves, Pairing.seen, List.filter_eq_self.mpr hall]
  · rw [hT.children h.moves] at hx
    exact (hT.kid h ⟨hx, hall x hx⟩).1.style

/-- What is done to a child that the second pass has not. -/
theorem aside (hx : x ∈ T.kids) (hno : T.keeps x = false)
    (hw : Pass.Works T.visit T.c.id (Sole x) p p') : T.Goes K p' q := by
  have hworks : T.Works p p' := hw.mono fun t ht => by
    cases t <;> first | exact ht.elim | exact Eq.mpr (congrArg (· ∈ T.kids) ht) hx
  exact h.goes ((hT.spares hx hno).aside h hw) (hT.moves h.moves hworks)

end

end Tandem

end Flexbox
