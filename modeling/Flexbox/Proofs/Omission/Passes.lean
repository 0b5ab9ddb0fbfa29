import Flexbox.Proofs.Sizing.Passes

namespace Flexbox

variable {α : Type}

namespace Node

variable {n m : Node α} {h : NodeId}

def without (h : NodeId) (n : Node α) : Node α :=
  { n with children := n.children.filter (· != h) }

theorem filter_of_not_mem {l : List NodeId} (hh : h ∉ l) : l.filter (· != h) = l :=
  List.filter_eq_self.mpr fun c hc => by simpa using fun he : c = h => hh (he ▸ hc)

theorem without_of_not_mem (hh : h ∉ n.children) : n.without h = n := by
  rw [without, filter_of_not_mem hh]

variable [Scalar α]

/-- Some of the children `l` of a row are aligned to a common baseline. -/
def Levels (n : Node α) (node : NodeId → Node α) (l : List NodeId) : Prop :=
  n.style.flexDirection.isColumn = false ∧ (n.style.alignItems = .baseline ∨
    ∃ c ∈ l, (node c).isAbsolute = false ∧ (node c).style.alignSelf = .baseline)

/-- What a node reads of all its children is the same without the hidden child `h`: its lone
flexible child, its automatic margins on the main axis and whether it aligns to a baseline. -/
structure Ignores (n : Node α) (node : NodeId → Node α) (h : NodeId) : Prop where
  hidden : (node h).isHidden = true
  lone : (node h).isFlexible = false ∨
    Container.loneFlexible ((n.without h).children.map fun c => (c, node c)) none = none
  margins : (node h).isAbsolute = true ∨
    ∀ d, (node h).hasAutoMargin (n.style.flexDirection.resolve d) = false
  aligned : n.Levels node n.children → n.Levels node (n.without h).children
  others : ∃ c ∈ n.children, c ≠ h

/-- The node takes the baseline of the child for its own before that of others. -/
def prefers (n child : Node α) : Bool := n.alignOf child == .baseline || child.isReferenceBaseline

/-- The baseline of a node is never that of its hidden child `h`: the child is absolute, or one
before it is not and is no worse a choice. -/
def Overlooks (n : Node α) (node : NodeId → Node α) (h : NodeId) : Prop :=
  n.baseline.isSome = true ∨ (node h).isAbsolute = true ∨
    ∃ c ∈ n.children.takeWhile (· != h), (node c).isAbsolute = false ∧
      (n.prefers (node h) = true → n.prefers (node c) = true)

end Node

namespace Pass

variable [Scalar α] {b p p' q q' : Pass α} {S H : Set NodeId} {h x : NodeId}
  {f : Node α → Node α}

def Lists (b : Pass α) (S : Set NodeId) (h : NodeId) : Prop := ∃ x ∈ S, h ∈ b.children x

def Leads (b : Pass α) : NodeId → NodeId → Prop :=
  Relation.ReflTransGen fun p c => c ∈ b.children p

/-- From `x` down, no node of `S` takes the baseline of `h` for its own. -/
def Overlooked (b : Pass α) (S : Set NodeId) (h x : NodeId) : Prop :=
  ∀ y ∈ S, b.Leads x y → h ∈ b.children y → (b.node y).Overlooks b.node h

/-- What two passes over the nodes `S` take for granted, the second of which leaves `h` out: nothing
is shared, what is below `h` is in `H` and apart, and the node that lists `h` is laid out the same
without it. -/
structure Gap (b : Pass α) (S H : Set NodeId) (h : NodeId) : Prop where
  closed : ∀ x ∈ S, ∀ c ∈ b.children x, c ≠ h → c ∈ S
  below : ∀ x ∈ H, ∀ c ∈ b.children x, c ∈ H
  owned : ∀ x ∈ S ∪ H, ∀ c ∈ b.children x, (b.node c).owner = some x
  apart : ∀ x ∈ S, x ∉ H
  inside : Lists b S h → h ∈ H
  ignored : ∀ x ∈ S, h ∈ b.children x → (b.node x).Ignores b.node h
  overlooked : ∀ x ∈ S, (b.node x).Levels b.node (b.children x) →
    ∀ c ∈ b.children x, c ≠ h → Overlooked b S h c

/-- Nothing of a pass differs from `b` that is not on nodes. -/
structure Framed (b p : Pass α) : Prop where
  sound : p.tree.Sound
  size : p.tree.slots.size = b.tree.slots.size
  limits : p.limits = b.limits
  generation : p.generation = b.generation

/-- On the nodes `S` the second pass holds what the first one does, but lists `h` nowhere. -/
structure Omits (b : Pass α) (S H : Set NodeId) (h : NodeId) (p q : Pass α) : Prop where
  gap : Gap b S H h
  left : Framed b p
  right : Framed b q
  live : ∀ x ∈ S ∪ H, p.tree.Live x
  live' : ∀ x ∈ S, q.tree.Live x
  core : ∀ x ∈ S ∪ H, Node.SameCore (b.node x) (p.node x)
  node : ∀ x ∈ S, q.node x = (p.node x).without h
  line : (p.node h).line = 0

omit [Scalar α] in
theorem node_congr (hf : q.tree.find? x = p.tree.find? x) (hl : q.limits = p.limits) :
    q.node x = p.node x := by
  rw [Pass.node, hf, hl, Pass.node]

section

variable (hm : Omits b S H h p q)

include hm

theorem Omits.depth : q.depth = p.depth := by
  rw [Pass.depth, Pass.depth, hm.left.size, hm.right.size, hm.left.limits, hm.right.limits]

theorem Omits.generation : q.generation = p.generation := by
  rw [hm.left.generation, hm.right.generation]

theorem Omits.same (hx : x ∈ S) {β : Type} (f : Node α → β) (hf : ∀ n, f (Node.without h n) = f n) :
    f (q.node x) = f (p.node x) := by
  rw [hm.node x hx, hf]

theorem Omits.facing (hx : x ∈ S) :
    (p.node x).Faces false (q.node x) ∧ (p.node x).Level (q.node x) := by
  rw [hm.node x hx]
  exact ⟨rfl, Node.Faces.level rfl⟩

theorem Omits.children (hx : x ∈ S ∪ H) : p.children x = b.children x := by
  rw [Pass.children, hm.core x hx]
  rfl

theorem Omits.children' (hx : x ∈ S) : q.children x = (b.children x).filter (· != h) := by
  rw [Pass.children, hm.node x hx, ← hm.children (Or.inl hx)]
  rfl

theorem Omits.style (hx : x ∈ S ∪ H) : (p.node x).style = (b.node x).style := by
  rw [hm.core x hx]

theorem Omits.isHidden (hx : x ∈ S ∪ H) : (p.node x).isHidden = (b.node x).isHidden := by
  simp only [Node.isHidden, hm.style hx]

theorem Omits.isAbsolute (hx : x ∈ S ∪ H) : (p.node x).isAbsolute = (b.node x).isAbsolute := by
  simp only [Node.isAbsolute, hm.style hx]

theorem Omits.skipped (hx : x ∈ S) (hh : h ∈ b.children x) :
    h ∈ H ∧ (p.node h).isHidden = true ∧ (p.node h).isInFlow = false := by
  have hH := hm.gap.inside ⟨x, hx, hh⟩
  have hidden : (p.node h).isHidden = true := by
    rw [hm.isHidden (Or.inr hH), (hm.gap.ignored x hx hh).hidden]
  exact ⟨hH, hidden, by simp [Node.isInFlow, hidden]⟩

theorem Omits.emptied (hx : x ∈ S) (hnone : (b.children x).filter (· != h) = []) :
    b.children x = [] := by
  by_cases hh : h ∈ b.children x
  · obtain ⟨y, hy, hne⟩ := (hm.gap.ignored x hx hh).others
    have hmem : y ∈ (b.children x).filter (· != h) := List.mem_filter.mpr ⟨hy, by simpa using hne⟩
    rw [hnone] at hmem
    cases hmem
  · rwa [Node.filter_of_not_mem hh] at hnone

theorem Omits.owned (hx : x ∈ S) : ∀ c ∈ p.tree.childrenOf x, p.tree.ownerOf c = some x := by
  intro c hc
  rw [← children_eq (hm.live x (Or.inl hx)), hm.children (Or.inl hx)] at hc
  have hcS : c ∈ S ∪ H := by
    by_cases he : c = h
    · exact Or.inr (he ▸ hm.gap.inside ⟨x, hx, he ▸ hc⟩)
    · exact Or.inl (hm.gap.closed x hx c hc he)
  rw [Tree.ownerOf_eq (node_eq (hm.live c hcS)), hm.core c hcS]
  exact hm.gap.owned x (Or.inl hx) c hc

theorem Omits.ownChildren (hx : x ∈ S) : p.ownChildren x = p :=
  ownChildren_owned hm.left.sound (hm.live x (Or.inl hx)) (hm.owned hx)

theorem Omits.ownChildren' (hx : x ∈ S) : q.ownChildren x = q := by
  refine ownChildren_owned hm.right.sound (hm.live' x hx) fun c hc => ?_
  rw [← children_eq (hm.live' x hx), hm.children' hx] at hc
  obtain ⟨hc, hne⟩ := List.mem_filter.mp hc
  have hcS := hm.gap.closed x hx c hc (bne_iff_ne.mp hne)
  rw [Tree.ownerOf_eq (node_eq (hm.live' c hcS)), hm.same hcS Node.owner fun _ => rfl,
    hm.core c (Or.inl hcS)]
  exact hm.gap.owned x (Or.inl hx) c hc

end

omit [Scalar α] in
theorem Framed.update (hf : Framed b p) (x : NodeId) (hc : ∀ n, Node.SameCore n (f n)) :
    Framed b (p.update x f) :=
  ⟨hf.sound.update x fun n _ => (hc n).links,
    (Array.size_modify ..).trans hf.size, hf.limits, hf.generation⟩

section

variable (hm : Omits b S H h p q) (hx : x ∈ S) (hc : ∀ n, Node.SameCore n (f n))
  (hw : ∀ n, f (Node.without h n) = (f n).without h)

include hm hx hc hw

theorem Omits.update (hline : x = h → (f (p.node h)).line = (p.node h).line) :
    Omits b S H h (p.update x f) (q.update x f) := by
  have hread := node_update (hm.live x (Or.inl hx)) f
  have hread' := node_update (hm.live' x hx) f
  refine ⟨hm.gap, hm.left.update x hc, hm.right.update x hc,
    fun y hy => Tree.live_update.mpr (hm.live y hy),
    fun y hy => Tree.live_update.mpr (hm.live' y hy), fun y hy => ?_, fun y hy => ?_, ?_⟩
  · rw [hread]
    split
    · rename_i he
      subst he
      exact (hm.core y hy).trans (hc _)
    · exact hm.core y hy
  · rw [hread, hread']
    split
    · rw [hm.node x hx, hw]
    · exact hm.node y hy
  · rw [hread]
    split
    · rename_i he
      subst he
      rw [hline rfl, hm.line]
    · exact hm.line

theorem Omits.write (hline : ∀ n, (f n).line = n.line) :
    Omits b S H h (p.update x f) (q.update x f) :=
  hm.update hx hc hw fun _ => hline _

end

theorem Omits.aside (hm : Omits b S H h p q) (hf : Framed b p')
    (hS : ∀ x ∈ S, p'.tree.find? x = p.tree.find? x) (hl : ∀ x ∈ H, p'.tree.Live x)
    (hc : ∀ x ∈ H, Node.SameCore (b.node x) (p'.node x)) (hline : (p'.node h).line = 0) :
    Omits b S H h p' q := by
  have hlimits : p'.limits = p.limits := by rw [hf.limits, hm.left.limits]
  have hnode : ∀ x ∈ S, p'.node x = p.node x := fun x hx => node_congr (hS x hx) hlimits
  refine ⟨hm.gap, hf, hm.right, fun x hx => ?_, hm.live', fun x hx => ?_, fun x hx => ?_, hline⟩
  · rcases hx with hx | hx
    · rw [Tree.Live, hS x hx]
      exact hm.live x (Or.inl hx)
    · exact hl x hx
  · rcases hx with hx | hx
    · rw [hnode x hx]
      exact hm.core x (Or.inl hx)
    · exact hc x hx
  · rw [hnode x hx]
    exact hm.node x hx

theorem Omits.skip (hm : Omits b S H h p q) (hx : x ∈ H) (hc : ∀ n, Node.SameCore n (f n))
    (hline : ∀ n, (f n).line = n.line) : Omits b S H h (p.update x f) q := by
  have hread := node_update (hm.live x (Or.inr hx)) f
  refine hm.aside (hm.left.update x hc) (fun y hy => ?_)
    (fun y hy => Tree.live_update.mpr (hm.live y (Or.inr hy))) (fun y hy => ?_) ?_
  · exact Tree.find?_update_other _ _ fun he => hm.gap.apart y hy (he ▸ hx)
  · rw [hread]
    split
    · rename_i he
      subst he
      exact (hm.core y (Or.inr hy)).trans (hc _)
    · exact hm.core y (Or.inr hy)
  · rw [hread]
    split
    · rename_i he
      rw [hline, ← he, hm.line]
    · exact hm.line

theorem Omits.notes (hm : Omits b S H h p q) (hp : Framed b p') (hq : Framed b q')
    (hf : p'.tree.find? = p.tree.find?) (hf' : q'.tree.find? = q.tree.find?) :
    Omits b S H h p' q' := by
  have hnode : ∀ x, p'.node x = p.node x := fun x =>
    node_congr (by rw [hf]) (by rw [hp.limits, hm.left.limits])
  have hnode' : ∀ x, q'.node x = q.node x := fun x =>
    node_congr (by rw [hf']) (by rw [hq.limits, hm.right.limits])
  refine ⟨hm.gap, hp, hq, fun x hx => ?_, fun x hx => ?_, fun x hx => ?_, fun x hx => ?_, ?_⟩
  · rw [Tree.Live, hf]
    exact hm.live x hx
  · rw [Tree.Live, hf']
    exact hm.live' x hx
  · rw [hnode]
    exact hm.core x hx
  · rw [hnode, hnode']
    exact hm.node x hx
  · rw [hnode]
    exact hm.line

theorem Omits.count (hm : Omits b S H h p q) (f g : Stats → Stats) :
    Omits b S H h (p.count f) (q.count g) :=
  hm.notes ⟨hm.left.sound, hm.left.size, hm.left.limits, hm.left.generation⟩
    ⟨hm.right.sound, hm.right.size, hm.right.limits, hm.right.generation⟩ rfl rfl

theorem Omits.record (hm : Omits b S H h p q) (v w : Visit α) :
    Omits b S H h (p.record v) (q.record w) :=
  hm.notes ⟨hm.left.sound, hm.left.size, hm.left.limits, hm.left.generation⟩
    ⟨hm.right.sound, hm.right.size, hm.right.limits, hm.right.generation⟩ rfl rfl

theorem Omits.tell (hm : Omits b S H h p q) (e e' : Event α) :
    Omits b S H h (p.tell e) (q.tell e') :=
  hm.notes ⟨hm.left.sound.tell e, hm.left.size, hm.left.limits, hm.left.generation⟩
    ⟨hm.right.sound.tell e', hm.right.size, hm.right.limits, hm.right.generation⟩ rfl rfl

section

variable (hm : Omits b S H h p q) (hx : x ∈ S)

include hm hx

theorem Omits.updateGeometry (f : Geometry α → Geometry α) :
    Omits b S H h (p.updateGeometry x f) (q.updateGeometry x f) :=
  hm.write hx (fun _ => rfl) (fun _ => rfl) fun _ => rfl

theorem Omits.redraw {f : Node α → Geometry α} (hf : ∀ n, f (Node.without h n) = f n) :
    Omits b S H h (p.redraw x f) (q.redraw x f) :=
  hm.write hx (fun _ => rfl)
    (fun n => congrArg (fun g => { Node.without h n with geometry := g }) (hf n)) fun _ => rfl

theorem Omits.setMeasured (width height : α) :
    Omits b S H h (p.setMeasured x width height) (q.setMeasured x width height) :=
  hm.updateGeometry hx _

end

theorem ite_omits {P : Prop} [Decidable P] (hm : Omits b S H h p q)
    (hthen : P → Omits b S H h p' q') :
    Omits b S H h (if P then p' else p) (if P then q' else q) := by
  split
  · exact hthen ‹_›
  · exact hm

theorem walk_skipping {f g : Pass α → NodeId → Pass α} {l : List NodeId}
    (hm : Omits b S H h p q)
    (hstep : ∀ r r', ∀ x ∈ l, x ≠ h → Omits b S H h r r' → Omits b S H h (f r x) (g r' x))
    (hskip : h ∈ l → ∀ r r', Omits b S H h r r' → Omits b S H h (f r h) r') :
    Omits b S H h (l.foldl f p) ((l.filter (· != h)).foldl g q) := by
  induction l generalizing p q with
  | nil => exact hm
  | cons x l ih =>
    have ih := fun {p q} (hm : Omits b S H h p q) =>
      ih hm (fun r r' y hy => hstep r r' y (by simp [hy])) fun hh => hskip (by simp [hh])
    by_cases he : x = h
    · subst he
      rw [List.filter_cons_of_neg (by simp), List.foldl_cons]
      exact ih (hskip (by simp) p q hm)
    · rw [List.filter_cons_of_pos (by simpa using he), List.foldl_cons, List.foldl_cons]
      exact ih (hstep p q x (by simp) he hm)

/-- A pair of visitors that keep two passes related. What is left out is visited in the first pass
alone, and so it is where it is cleared away. -/
structure Escorts (b : Pass α) (S H : Set NodeId) (h : NodeId) (v v' : Visitor α) : Prop where
  mover : Mover Set.univ v
  visit : ∀ {p q x r}, Omits b S H h p q → x ∈ S → Omits b S H h (v x r p) (v' x r q)
  skip : ∀ {p q r}, Lists b S h → Omits b S H h p q → Omits b S H h (v h r p) q
  clear : ∀ {p q fuel}, Lists b S h → Omits b S H h p q → Omits b S H h (zeroOut fuel h p) q

structure Seated (b : Pass α) (S : Set NodeId) (c : Container α) : Prop where
  mem : c.id ∈ S
  axis : c.mainAxis = (b.node c.id).style.flexDirection.resolve c.direction

end Pass

end Flexbox
