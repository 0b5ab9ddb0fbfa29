import Flexbox.Proofs.Twins
import Flexbox.Proofs.Seclusion

namespace Flexbox

theorem Offsets.get_set {α : Type} (o : Offsets α) (side side' : Side) (x : α) :
    (o.set side x).get side' = if side' = side then x else o.get side' := by
  cases side <;> cases side' <;> rfl

namespace Pass

variable {α : Type} [Scalar α] {b p p' q q' u u' : Pass α} {B : Set NodeId} {h : Nat} {x y : NodeId}
  {f f' : Node α → Node α} {S : Set NodeId} {part : Part}

/-- Nodes that list only each other, each of them the owner of what it lists. -/
structure Ground (b : Pass α) (B : Set NodeId) : Prop where
  live : ∀ x ∈ B, b.tree.Live x
  closed : ∀ x ∈ B, ∀ c ∈ b.children x, c ∈ B
  owned : ∀ x ∈ B, ∀ c ∈ b.children x, (b.node c).owner = some x

/-- The nodes `B` of a pass that started from `b` are as they were, but for what solving writes. -/
structure Retains (b : Pass α) (B : Set NodeId) (p : Pass α) : Prop where
  ground : Ground b B
  sound : p.tree.Sound
  live : ∀ x ∈ B, p.tree.Live x
  core : ∀ {x}, x ∈ B → Node.SameCore (b.node x) (p.node x)

/-- What two passes side by side take for granted about the nodes `B` that they run over, said of
the left pass as it starts: nothing below is shared, measured or aligned to a baseline, and a
dirty node remembers nothing. -/
structure Stage (b : Pass α) (B : Set NodeId) : Prop extends Ground b B where
  unmeasured : ∀ x ∈ B, (b.node x).measure = none
  alignItems : ∀ x ∈ B, (b.node x).style.alignItems ≠ .baseline
  alignSelf : ∀ x ∈ B, (b.node x).style.alignSelf ≠ .baseline
  dirty : ∀ x ∈ B, (b.node x).isDirty = true → (b.node x).IsBlank

/-- Both passes have the same of a part of a node. -/
def At (part : Part) (x : NodeId) (p p' : Pass α) : Prop := (p.node x).Agree (p'.node x) part

/-- A node has the same box in both passes. -/
structure Boxed (x : NodeId) (p p' : Pass α) : Prop where
  side : ∀ s, At (.side s) x p p'
  size : At .size x p p'
  edges : At .edges x p p'

def Inner (b : Pass α) (x : NodeId) (p p' : Pass α) : Prop :=
  ∀ y, Relation.TransGen (fun a c => c ∈ b.children a) x y → Boxed y p p'

/-- Two passes side by side. A node whose children the right one has laid out has them laid out
the same way in the left one. -/
structure Twins (b : Pass α) (B : Set NodeId) (p p' : Pass α) : Prop where
  stage : Stage b B
  sound : p.tree.Sound
  sound' : p'.tree.Sound
  live : ∀ x ∈ B, p.tree.Live x
  live' : ∀ x ∈ B, p'.tree.Live x
  twin : ∀ x ∈ B, Node.Twin p.generation p'.generation (b.node x) (p.node x) (p'.node x)
  inner : ∀ x ∈ B, (p'.node x).geometry.lastLayout ≠ .blank → Inner b x p p'

def Keeps (B : Set NodeId) (p p' q q' : Pass α) : Prop :=
  ∀ x ∈ B, ∀ part, At part x p p' → At part x q q'

/-- What stands below the node is no more than `h` deep. -/
def Deep (b : Pass α) (h : Nat) (x : NodeId) : Prop := (b.tree.unfold h x).isSome = true

/-- Both passes moved on in lockstep, and of nodes deeper than `h` no memory was touched. -/
structure Along (b : Pass α) (B : Set NodeId) (h : Nat) (p p' q q' : Pass α) : Prop where
  twins : Twins b B q q'
  keeps : Keeps B p p' q q'
  still : ∀ x ∈ B, ¬ Deep b h x → Node.SameMemory (p.node x) (q.node x)
  still' : ∀ x ∈ B, ¬ Deep b h x → Node.SameMemory (p'.node x) (q'.node x)

theorem Keeps.boxed (hk : Keeps B p p' q q') (hx : x ∈ B) (hb : Boxed x p p') : Boxed x q q' :=
  ⟨fun s => hk x hx _ (hb.side s), hk x hx _ hb.size, hk x hx _ hb.edges⟩

omit [Scalar α] in
theorem Ground.below (hs : Ground b B) (hx : x ∈ B)
    (hy : Relation.TransGen (fun a c => c ∈ b.children a) x y) : y ∈ B := by
  induction hy with
  | single hc => exact hs.closed x hx _ hc
  | tail _ hc ih => exact hs.closed _ ih _ hc

theorem Keeps.inner (hk : Keeps B p p' q q') (hs : Ground b B) (hx : x ∈ B)
    (hi : Inner b x p p') : Inner b x q q' :=
  fun y hy => hk.boxed (hs.below hx hy) (hi y hy)

theorem Along.refl (ht : Twins b B p p') : Along b B h p p' p p' :=
  ⟨ht, fun _ _ _ ha => ha, fun _ _ _ => .refl _, fun _ _ _ => .refl _⟩

section

variable (ha : Along b B h p p' q q')

include ha

theorem Along.trans (ha' : Along b B h q q' u u') : Along b B h p p' u u' :=
  ⟨ha'.twins, fun x hx part hp => ha'.keeps x hx part (ha.keeps x hx part hp),
    fun x hx hd => (ha.still x hx hd).trans (ha'.still x hx hd),
    fun x hx hd => (ha.still' x hx hd).trans (ha'.still' x hx hd)⟩

theorem Along.mono {k : Nat} (hk : h ≤ k) : Along b B k p p' q q' :=
  ⟨ha.twins, ha.keeps,
    fun x hx hd => ha.still x hx fun hu => hd (Tree.unfold_isSome_mono hu hk),
    fun x hx hd => ha.still' x hx fun hu => hd (Tree.unfold_isSome_mono hu hk)⟩

theorem Along.at (hx : x ∈ B) (hp : At part x p p') : At part x q q' :=
  ha.keeps x hx part hp

end

section

omit [Scalar α]

variable (hr : Retains b B p) (hx : x ∈ B)

include hr hx

theorem Retains.style : (p.node x).style = (b.node x).style := by
  rw [hr.core hx]

theorem Retains.children : p.children x = b.children x := by
  rw [Pass.children, hr.core hx]
  rfl

theorem Retains.isHidden : (p.node x).isHidden = (b.node x).isHidden := by
  simp only [Node.isHidden, hr.style hx]

theorem Retains.owned : ∀ c ∈ p.tree.childrenOf x, p.tree.ownerOf c = some x := by
  intro c hc
  rw [← children_eq (hr.live x hx), hr.children hx] at hc
  have hcB := hr.ground.closed x hx c hc
  rw [Tree.ownerOf_eq (node_eq (hr.live c hcB)), hr.core hcB, hr.ground.owned x hx c hc]

theorem Retains.ready : Ready Set.univ p x :=
  .univ hr.sound (hr.live x hx)

theorem Retains.deep : Deep p h x ↔ Deep b h x := by
  unfold Deep
  induction h generalizing x with
  | zero => exact Iff.rfl
  | succ k ih =>
    have hlive := hr.ground.live x hx
    rw [Tree.unfold_isSome, Tree.unfold_isSome, ← children_eq (hr.live x hx), hr.children hx,
      ← children_eq hlive]
    refine and_congr (iff_of_true (hr.live x hx) hlive) (forall₂_congr fun y hy => ?_)
    exact ih (hr.ground.closed x hx y hy)

theorem Retains.grounded (hd : Deep b h x) : p.tree.Grounded x :=
  ⟨h, (hr.deep hx).mpr hd⟩

theorem Retains.update (hf : ∀ n, Node.SameCore n (f n)) : Retains b B (p.update x f) := by
  refine ⟨hr.ground, hr.sound.update x fun n _ => (hf n).links,
    fun y hy => Tree.live_update.mpr (hr.live y hy), fun {y} hy => ?_⟩
  rw [node_update (hr.live x hx)]
  split
  · rename_i he
    exact he ▸ (hr.core hx).trans (hf _)
  · exact hr.core hy

end

theorem Retains.ownChildren (hr : Retains b B p) (hx : x ∈ B) : p.ownChildren x = p :=
  ownChildren_owned hr.sound (hr.live x hx) (hr.owned hx)

section

variable (ht : Twins b B p p')

include ht

theorem Twins.left : Retains b B p :=
  ⟨ht.stage.toGround, ht.sound, ht.live, fun hx => (ht.twin _ hx).left⟩

theorem Twins.right : Retains b B p' :=
  ⟨ht.stage.toGround, ht.sound', ht.live', fun hx => (ht.twin _ hx).right⟩

theorem Twins.core (hx : x ∈ B) : Node.SameCore (p.node x) (p'.node x) :=
  (ht.twin x hx).core

end

theorem at_update (hl : p.tree.Live x) (hl' : p'.tree.Live x)
    (ha : (f (p.node x)).Agree (f' (p'.node x)) part) :
    At part x (p.update x f) (p'.update x f') := by
  unfold At
  rwa [node_update_self hl, node_update_self hl']

section

variable (ht : Twins b B p p')

include ht

theorem Twins.update (hx : x ∈ B) (hf : ∀ n, Node.SameCore n (f n))
    (hf' : ∀ n, Node.SameCore n (f' n))
    (htwin : Node.Twin p.generation p'.generation (b.node x) (f (p.node x)) (f' (p'.node x)))
    (hk : ∀ part, At part x p p' → (f (p.node x)).Agree (f' (p'.node x)) part)
    (hi : (f' (p'.node x)).geometry.lastLayout ≠ .blank → Inner b x p p')
    (hm : Deep b h x ∨ (Node.SameMemory (p.node x) (f (p.node x)) ∧ Node.SameMemory (p'.node x) (f'
      (p'.node x)))) : Along b B h p p' (p.update x f) (p'.update x f') := by
  have hnode := node_update (ht.live x hx) f
  have hnode' := node_update (ht.live' x hx) f'
  have hkeeps : Keeps B p p' (p.update x f) (p'.update x f') := by
    intro y hy part ha
    unfold At
    rw [hnode, hnode']
    split
    · rename_i he
      exact hk part (he ▸ ha)
    · exact ha
  have hleft := ht.left.update hx hf
  have hright := ht.right.update hx hf'
  refine ⟨⟨ht.stage, hleft.sound, hright.sound, hleft.live, hright.live, fun y hy => ?_,
    fun y hy hl => ?_⟩, hkeeps, fun y hy hd => ?_, fun y hy hd => ?_⟩
  · rw [hnode, hnode']
    split
    · rename_i he
      exact he ▸ htwin
    · exact ht.twin y hy
  · refine hkeeps.inner ht.stage.toGround hy ?_
    rw [hnode'] at hl
    split at hl
    · rename_i he
      exact he ▸ hi hl
    · exact ht.inner y hy hl
  · rw [hnode]
    split
    · rename_i he
      subst he
      exact (hm.resolve_left hd).1
    · exact .refl _
  · rw [hnode']
    split
    · rename_i he
      subst he
      exact (hm.resolve_left hd).2
    · exact .refl _

theorem Twins.write (hx : x ∈ B)
    (hk : ∀ part, At part x p p' → (f (p.node x)).Agree (f' (p'.node x)) part)
    (hf : ∀ n, Node.Ordinary n (f n) := by exact fun _ => ⟨rfl, rfl, rfl, rfl, rfl, rfl, rfl, rfl⟩)
    (hf' : ∀ n, Node.Ordinary n (f' n) := by
      exact fun _ => ⟨rfl, rfl, rfl, rfl, rfl, rfl, rfl, rfl⟩) :
    Along b B h p p' (p.update x f) (p'.update x f') := by
  refine ht.update hx (fun n => (hf n).core) (fun n => (hf' n).core)
    ((ht.twin x hx).ordinary (hf _) (hf' _) (hk .edges)) hk (fun hl => ?_)
    (Or.inr ⟨(hf _).memory, (hf' _).memory⟩)
  rw [(hf' _).memory.2.1] at hl
  exact ht.inner x hx hl

theorem Twins.along (hq : q.tree = p.tree) (hg : q.generation = p.generation)
    (hl : q.limits = p.limits) (hq' : q'.tree = p'.tree) (hg' : q'.generation = p'.generation)
    (hl' : q'.limits = p'.limits) : Along b B h p p' q q' := by
  have hnode : q.node = p.node := by
    funext x
    simp only [node, hq, hl]
  have hnode' : q'.node = p'.node := by
    funext x
    simp only [node, hq', hl']
  refine ⟨⟨ht.stage, hq ▸ ht.sound, hq' ▸ ht.sound', hq ▸ ht.live, hq' ▸ ht.live', ?_, ?_⟩,
    ?_, ?_, ?_⟩
  · rw [hnode, hnode', hg, hg']
    exact ht.twin
  · intro x hx hl y hy
    have hb := ht.inner x hx (by rwa [hnode'] at hl) y hy
    exact ⟨fun s => by rw [At, hnode, hnode']; exact hb.side s,
      by rw [At, hnode, hnode']; exact hb.size, by rw [At, hnode, hnode']; exact hb.edges⟩
  · intro x _ part ha
    rwa [At, hnode, hnode']
  · intro x _ _
    rw [hnode]
    exact .refl _
  · intro x _ _
    rw [hnode']
    exact .refl _

theorem Twins.count (f f' : Stats → Stats) : Along b B h p p' (p.count f) (p'.count f') :=
  ht.along rfl rfl rfl rfl rfl rfl

theorem Twins.record (v v' : Visit α) : Along b B h p p' (p.record v) (p'.record v') :=
  ht.along rfl rfl rfl rfl rfl rfl

section

variable (hx : x ∈ B)

include hx

theorem Twins.shiftBy (side : Side) (f : α → α) :
    Along b B h p p' (p.shiftBy x side f) (p'.shiftBy x side f) := by
  refine ht.write hx fun part ha => ?_
  cases part with
  | side s =>
    have ha : (p.node x).geometry.position.get s = (p'.node x).geometry.position.get s := ha
    change (Offsets.set _ side _).get s = (Offsets.set _ side _).get s
    rw [Offsets.get_set, Offsets.get_set]
    split
    · rename_i he
      rw [← he, ha]
    · exact ha
  | size | edges | basis | measured | line | preferred => exact ha

theorem Twins.resolveSize :
    Along b B h p p' (p.update x Node.resolveSize) (p'.update x Node.resolveSize) ∧
      At .preferred x (p.update x Node.resolveSize) (p'.update x Node.resolveSize) := by
  refine ⟨ht.write hx fun part ha => ?_,
    at_update (ht.live x hx) (ht.live' x hx) ⟨rfl, rfl⟩⟩
  cases part with
  | preferred => exact ⟨rfl, rfl⟩
  | side | size | edges | basis | measured | line => exact ha

theorem Twins.setMeasured (width height : α) :
    Along b B h p p' (p.setMeasured x width height) (p'.setMeasured x width height) ∧
      At .measured x (p.setMeasured x width height) (p'.setMeasured x width height) := by
  refine ⟨ht.write hx fun part ha => ?_,
    at_update (ht.live x hx) (ht.live' x hx) rfl⟩
  cases part with
  | measured => rfl
  | side | size | edges | basis | line | preferred => exact ha

theorem Twins.note {f : Geometry α → Geometry α}
    (hf : ∀ n : Node α, Node.Ordinary n { n with geometry := f n.geometry })
    (hk : ∀ n m : Node α, ∀ part, n.Agree m part →
      Node.Agree { n with geometry := f n.geometry } m part ∧
        n.Agree { m with geometry := f m.geometry } part)
    (condition condition' : Bool) :
    Along b B h p p' (p.updateGeometryIf condition x f) (p'.updateGeometryIf condition' x f) := by
  have hif : ∀ (q : Pass α) (condition : Bool), q.updateGeometryIf condition x f =
      q.update x fun n => if condition then { n with geometry := f n.geometry } else n := by
    intro q condition
    cases condition
    · exact congrArg (fun t => { q with tree := t }) (Tree.update_same fun _ _ => rfl).symm
    · rfl
  have hord : ∀ (n : Node α) (condition : Bool), Node.Ordinary n
      (if condition then { n with geometry := f n.geometry } else n) := by
    intro n condition
    cases condition
    · exact ⟨rfl, rfl, rfl, rfl, rfl, rfl, rfl, rfl⟩
    · exact hf n
  rw [hif, hif]
  refine ht.write hx (fun part ha => ?_) (fun n => hord n _) fun n => hord n _
  cases condition <;> cases condition'
  · exact ha
  · exact (hk _ _ part ha).2
  · exact (hk _ _ part ha).1
  · exact (hk _ _ part (hk _ _ part ha).1).2

theorem Twins.setBasis (basis : Extent α) :
    Along b B h p p' (p.setBasis x basis) (p'.setBasis x basis) ∧
      At .basis x (p.setBasis x basis) (p'.setBasis x basis) := by
  have htwin := ht.twin x hx
  have hconfig : (p'.node x).config = (p.node x).config := by rw [ht.core hx]
  refine ⟨ht.update hx (fun _ => rfl) (fun _ => rfl) ⟨htwin.left.trans rfl,
    htwin.right.trans rfl, htwin.dirty, ⟨?_, fun _ => rfl, Or.inr rfl⟩,
    ⟨htwin.recalls.measurements, htwin.recalls.lastLayout⟩, ?_⟩
    (fun part ha => ?_) (ht.inner x hx) (Or.inr ⟨.refl _, .refl _⟩),
    at_update (ht.live x hx) (ht.live' x hx) rfl⟩
  · simp [Container.basisIsStale, hconfig]
  · rcases htwin.asked with hu | ha
    · exact Or.inl hu
    · exact Or.inr ⟨ha.left, ha.right, ha.direction, ha.edges⟩
  · cases part with
    | basis => rfl
    | side | size | edges | measured | line | preferred => exact ha

end

end

/-- The left pass has taken no answer from what nodes of `B` remembered as it started, and no
memory has run full, unless nothing was remembered. -/
structure Quiet (b : Pass α) (B : Set NodeId) (q : Pass α) : Prop where
  forgotten : ∀ v ∈ q.trail, v.node ∈ B → v.source ≠ .computed →
    ((b.node v.node).refreshed b.generation v.request.ownerDirection).remembered? v.request = none
  room : q.stats.maxMeasureCache < measurementCapacity ∨
    ∀ x ∈ B, (b.node x).geometry.measurements = []

theorem Step.quiet (hs : Step S p q) (hq : Quiet b B q) : Quiet b B p := by
  cases hs with
  | update | own | tell => exact ⟨hq.forgotten, hq.room⟩
  | record v => exact ⟨fun u hu => hq.forgotten u (List.mem_cons_of_mem _ hu), hq.room⟩
  | count hf => exact ⟨hq.forgotten, hq.room.imp (lt_of_le_of_lt (hf _)) id⟩

theorem Moves.quiet (hm : Moves S p q) (hq : Quiet b B q) : Quiet b B p := by
  induction hm with
  | refl => exact hq
  | tail _ hstep ih => exact ih (hstep.quiet hq)

/-- Two walks over a list in lockstep. What a step settles about the element it comes by stays
settled. -/
theorem walk_along {γ : Type} (P : γ → Pass α → Pass α → Prop) {f g : Pass α → γ → Pass α}
    {l : List γ} (hpost : ∀ x ∈ l, ∀ {q q' u u'}, Along b B h q q' u u' → P x q q' → P x u u')
    (ht : Twins b B p p')
    (hmoves : ∀ r, ∀ x ∈ l, Moves Set.univ p r → Moves Set.univ r (f r x))
    (hstep : ∀ r r', ∀ x ∈ l, Along b B h p p' r r' → Quiet b B (f r x) →
      Along b B h r r' (f r x) (g r' x) ∧ P x (f r x) (g r' x))
    (hq : Quiet b B (l.foldl f p)) :
    Along b B h p p' (l.foldl f p) (l.foldl g p') ∧
      ∀ x ∈ l, P x (l.foldl f p) (l.foldl g p') := by
  induction l generalizing p p' with
  | nil => exact ⟨.refl ht, by simp⟩
  | cons x l ih =>
    have hx := hmoves p x (by simp) (Moves.refl _)
    have hrest := foldl_moves (fun q => q) l (f := f) (s := f p x) fun r y hy hm =>
      hmoves r y (by simp [hy]) (hx.trans hm)
    obtain ⟨halong, hpost₁⟩ := hstep p p' x (by simp) (.refl ht) (hrest.quiet hq)
    obtain ⟨halong₂, hpost₂⟩ := ih (fun y hy => hpost y (by simp [hy])) halong.twins
      (fun r y hy hm => hmoves r y (by simp [hy]) (hx.trans hm))
      (fun r r' y hy ha => hstep r r' y (by simp [hy]) (halong.trans ha)) hq
    refine ⟨halong.trans halong₂, fun y hy => ?_⟩
    rcases List.mem_cons.mp hy with rfl | hy
    · exact hpost _ (by simp) halong₂ hpost₁
    · exact hpost₂ y hy

end Pass

end Flexbox
