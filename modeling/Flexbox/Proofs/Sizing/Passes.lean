import Flexbox.Proofs.Sizing.Answers

namespace Flexbox

variable {α : Type} [Scalar α]

open Scalar (IsNumber IsFinite Lawful)

namespace Node

variable {n m o : Node α} {loose loose' shown : Prop}

/-- Both sizes of an entry keep to the bounds of the box. -/
def FitsEntry (loose : Prop) (n : Node α) (m : Measurement α) : Prop :=
  ∀ d, Fits loose n d (Size.get ⟨m.computedWidth, m.computedHeight⟩ d)

/-- All sizes on a node, and those it remembers, keep to the bounds that it was given. -/
structure Tidy (loose shown : Prop) (o n : Node α) : Prop where
  core : SameCore o n
  measured : ∀ d x, n.geometry.measured.get d = .known x → Fits loose o d x
  memory : ∀ m ∈ n.geometry.measurements, FitsEntry loose o m
  last : n.geometry.lastLayout ≠ .blank → FitsEntry loose o n.geometry.lastLayout
  size : shown → ∀ d x, n.geometry.size.get d = .known x → Fits loose o d x
  basis : ∀ x, n.geometry.flexBasis = .known x → IsNumber x

theorem Tidy.mono (h : Tidy loose shown o n) (hl : loose → loose') : Tidy loose' shown o n :=
  ⟨h.core, fun d x hx => (h.measured d x hx).mono hl, fun m hm d => (h.memory m hm d).mono hl,
    fun hne d => (h.last hne d).mono hl, fun hs d x hx => (h.size hs d x hx).mono hl, h.basis⟩

structure SameSizes (n m : Node α) : Prop where
  core : SameCore n m
  measured : m.geometry.measured = n.geometry.measured
  memory : m.geometry.measurements = n.geometry.measurements
  last : m.geometry.lastLayout = n.geometry.lastLayout
  size : m.geometry.size = n.geometry.size
  basis : m.geometry.flexBasis = n.geometry.flexBasis
  resolved : m.resolvedSize = n.resolvedSize

theorem Tidy.same (h : Tidy loose shown o n) (hs : SameSizes n m) : Tidy loose shown o m := by
  refine ⟨h.core.trans hs.core, ?_, ?_, ?_, ?_, ?_⟩
  · rw [hs.measured]
    exact h.measured
  · rw [hs.memory]
    exact h.memory
  · rw [hs.last]
    exact h.last
  · rw [hs.size]
    exact h.size
  · rw [hs.basis]
    exact h.basis

def IsMeasured (n : Node α) : Prop := ∀ d, ∃ x, n.geometry.measured.get d = .known x

def HasSize (n : Node α) : Prop := ∀ d, ∃ x, n.geometry.size.get d = .known x

theorem SameSizes.isSized (hs : SameSizes n m) (h : n.IsSized) : m.IsSized :=
  h.congr (by rw [hs.core]) hs.resolved

end Node

namespace Pass

variable {b p q u : Pass α} {B D : Set NodeId} {h : Nat} {x y : NodeId}
  {trail trail' : List (Visit α)} {node : NodeId → Node α}

/-- The widths that percentages of a node's margins are taken of: its owner's by a request to it,
and the inner width of a node that lists it, in a request to that one. -/
inductive Takes (node : NodeId → Node α) (trail : List (Visit α)) (x : NodeId) : Extent α → Prop
  | owner {v : Visit α} (hv : v ∈ trail) (hx : v.node = x) :
      Takes node trail x v.request.ownerWidth
  | lister {v : Visit α} (hv : v ∈ trail) (hx : x ∈ (node v.node).children) :
      Takes node trail x
        ((node v.node).innerSize .row v.request.width.size v.request.ownerWidth)

/-- At a width that percentages are taken of, the margins of the node have no finite sum. -/
def Unbalanced (node : NodeId → Node α) (trail : List (Visit α)) (x : NodeId) : Prop :=
  ∃ width, Takes node trail x width ∧ ¬ (node x).Balanced width

/-- As `Unbalanced`, or so at a width that was offered to the node. -/
def Strained (node : NodeId → Node α) (trail : List (Visit α)) (x : NodeId) : Prop :=
  Unbalanced node trail x ∨ ∃ v ∈ trail, v.node = x ∧ ¬ (node x).Balanced v.request.width.size

/-- Neither offer of a request binds without a size, or there is an excuse. -/
def Proper (node : NodeId → Node α) (trail : List (Visit α)) (v : Visit α) : Prop :=
  (v.request.width.Sound ∧ v.request.height.Sound) ∨ (node v.node).Degenerate ∨
    Unbalanced node trail v.node

theorem Takes.mono {width : Extent α} (ht : Takes node trail x width)
    (hs : ∀ v ∈ trail, v ∈ trail') : Takes node trail' x width := by
  cases ht with
  | owner hv hx => exact .owner (hs _ hv) hx
  | lister hv hx => exact .lister (hs _ hv) hx

theorem Unbalanced.mono (hu : Unbalanced node trail x) (hs : ∀ v ∈ trail, v ∈ trail') :
    Unbalanced node trail' x := by
  obtain ⟨width, ht, hb⟩ := hu
  exact ⟨width, ht.mono hs, hb⟩

theorem Strained.mono (hu : Strained node trail x) (hs : ∀ v ∈ trail, v ∈ trail') :
    Strained node trail' x := by
  rcases hu with hu | ⟨v, hv, hx⟩
  · exact Or.inl (hu.mono hs)
  · exact Or.inr ⟨v, hs v hv, hx⟩

def Below (b : Pass α) : NodeId → NodeId → Prop :=
  Relation.TransGen fun a c => c ∈ b.children a

/-- What a pass over the nodes `B` takes for granted: nothing is shared, measured nodes are leaves,
no child list is longer than slots can be numbered, and `D`, the nodes that are to get a size, are
not below hidden ones. -/
structure Scene (b : Pass α) (B D : Set NodeId) : Prop extends Ground b B where
  leaf : ∀ x ∈ B, (b.node x).measure.isSome = true → b.children x = []
  few : ∀ x ∈ B, (b.children x).length ≤ 2 ^ 32
  apart : ∀ x ∈ B, ∀ c ∈ b.children x, (b.node c).isHidden = true →
    ∀ y ∈ D, ¬ Relation.ReflTransGen (fun a c => c ∈ b.children a) c y

/-- Equal bounds need not be met: the node is not to get a size, or its margins are in the way. -/
def Exempt (b : Pass α) (D : Set NodeId) (trail : List (Visit α)) (x : NodeId) : Prop :=
  x ∉ D ∨ Strained b.node trail x

theorem Exempt.mono (he : Exempt b D trail x) (hs : ∀ v ∈ trail, v ∈ trail') :
    Exempt b D trail' x :=
  he.imp_right fun hu => hu.mono hs

def SizedBelow (b : Pass α) (D : Set NodeId) (x : NodeId) (p : Pass α) : Prop :=
  ∀ y ∈ D, Below b x y → (p.node y).HasSize

/-- A node and all that is to get a size below it have one. -/
def SizedFrom (b : Pass α) (D : Set NodeId) (x : NodeId) (q : Pass α) : Prop :=
  ∀ y ∈ D, Relation.ReflTransGen (fun a c => c ∈ b.children a) x y → (q.node y).HasSize

/-- The invariant of a pass. -/
structure Kept (b : Pass α) (B D : Set NodeId) (p : Pass α) : Prop extends Retains b B p where
  scene : Scene b B D
  tidy : ∀ x ∈ B, Node.Tidy (Exempt b D p.trail x) (x ∈ D) (b.node x) (p.node x)
  visits : ∀ v ∈ p.trail, v.node ∈ B ∧ Proper b.node p.trail v
  inner : ∀ x ∈ B, (p.node x).geometry.lastLayout ≠ .blank → SizedBelow b D x p

/-- How a pass moves on: requests are added, and all below a node that was asked for a full layout
has a size. What has a size goes on to have one, and nodes deeper than `h` go on to be measured. -/
structure Goes (b : Pass α) (B D : Set NodeId) (h : Nat) (p q : Pass α) : Prop where
  kept : Kept b B D q
  trail : ∃ run, q.trail = run ++ p.trail ∧
    ∀ v ∈ run, v.request.performLayout = true → SizedFrom b D v.node q
  size : ∀ y ∈ D, (p.node y).HasSize → (q.node y).HasSize
  sized : ∀ y ∈ B, (p.node y).IsSized → (q.node y).IsSized
  measured : ∀ y ∈ B, ¬ Deep b h y → (p.node y).IsMeasured → (q.node y).IsMeasured

theorem Goes.refl (hk : Kept b B D p) : Goes b B D h p p :=
  ⟨hk, ⟨[], rfl, by simp⟩, fun _ _ hs => hs, fun _ _ hs => hs, fun _ _ _ hm => hm⟩

theorem Goes.sizedFrom (hg : Goes b B D h p q) (hl : SizedFrom b D x p) : SizedFrom b D x q :=
  fun y hy hb => hg.size y hy (hl y hy hb)

theorem Goes.more (hg : Goes b B D h p q) : ∀ v ∈ p.trail, v ∈ q.trail := by
  obtain ⟨run, htrail, -⟩ := hg.trail
  rw [htrail]
  exact fun v hv => List.mem_append_right run hv

theorem Goes.trans (hg : Goes b B D h p q) (hg' : Goes b B D h q u) : Goes b B D h p u := by
  obtain ⟨run, htrail, hrun⟩ := hg.trail
  obtain ⟨run', htrail', hrun'⟩ := hg'.trail
  refine ⟨hg'.kept, ⟨run' ++ run, by rw [htrail', htrail, List.append_assoc], fun v hv hl => ?_⟩,
    fun y hy hs => hg'.size y hy (hg.size y hy hs),
    fun y hy hs => hg'.sized y hy (hg.sized y hy hs),
    fun y hy hd hm => hg'.measured y hy hd (hg.measured y hy hd hm)⟩
  rcases List.mem_append.mp hv with hv | hv
  · exact hrun' v hv hl
  · exact hg'.sizedFrom (hrun v hv hl)

theorem Goes.mono {k : Nat} (hg : Goes b B D h p q) (hk : h ≤ k) : Goes b B D k p q :=
  ⟨hg.kept, hg.trail, hg.size, hg.sized, fun y hy hd =>
    hg.measured y hy fun hu => hd (Tree.unfold_isSome_mono hu hk)⟩

theorem Goes.sizedBelow (hg : Goes b B D h p q) (hs : SizedBelow b D x p) :
    SizedBelow b D x q :=
  fun y hy hb => hg.size y hy (hs y hy hb)

theorem Kept.measuredSize [Lawful α] (hk : Kept b B D p) (hx : x ∈ B) (d : Dimension) :
    IsNumber ((p.node x).geometry.measuredSize d) := by
  unfold Geometry.measuredSize
  cases hm : (p.node x).geometry.measured.get d with
  | undefined => exact Scalar.zero_number
  | known m => exact ((hk.tidy x hx).measured d m hm).number

/-- Chores that do no more than place nodes of `B`. -/
def Places (B : Set NodeId) : Chore α → Prop
  | .place x => x ∈ B
  | .report => True
  | _ => False

section

variable (hk : Kept b B D p) {f : Node α → Node α}

include hk

theorem Kept.update (hx : x ∈ B) (hf : ∀ n, Node.SameCore n (f n))
    (htidy : Node.Tidy (Exempt b D p.trail x) (x ∈ D) (b.node x) (f (p.node x)))
    (hlast : (f (p.node x)).geometry.lastLayout ≠ .blank → SizedBelow b D x p)
    (hsize : x ∈ D → (p.node x).HasSize → (f (p.node x)).HasSize)
    (hsized : (p.node x).IsSized → (f (p.node x)).IsSized)
    (hmeasured : Deep b h x ∨ ((p.node x).IsMeasured → (f (p.node x)).IsMeasured)) :
    Goes b B D h p (p.update x f) := by
  have hnode := node_update (hk.live x hx) f
  have hall : ∀ y ∈ D, (p.node y).HasSize → ((p.update x f).node y).HasSize := by
    intro y hy hs
    rw [hnode]
    split
    · rename_i he
      subst he
      exact hsize hy hs
    · exact hs
  refine ⟨⟨hk.toRetains.update hx hf, hk.scene, fun y hy => ?_, hk.visits, fun y hy hl => ?_⟩,
    ⟨[], rfl, by simp⟩, hall, fun y hy hs => ?_, fun y hy hd hm => ?_⟩
  · rw [hnode]
    split
    · rename_i he
      exact he ▸ htidy
    · exact hk.tidy y hy
  · rw [hnode] at hl
    have hbelow : SizedBelow b D y p := by
      split at hl
      · rename_i he
        exact he ▸ hlast hl
      · exact hk.inner y hy hl
    exact fun z hz hb => hall z hz (hbelow z hz hb)
  · rw [hnode]
    split
    · rename_i he
      subst he
      exact hsized hs
    · exact hs
  · rw [hnode]
    split
    · rename_i he
      subst he
      exact hmeasured.resolve_left hd hm
    · exact hm

theorem Kept.write (hx : x ∈ B)
    (hf : ∀ n, Node.SameSizes n (f n) := by exact fun _ => ⟨rfl, rfl, rfl, rfl, rfl, rfl, rfl⟩) :
    Goes b B D h p (p.update x f) := by
  refine hk.update hx (fun n => (hf n).core) ((hk.tidy x hx).same (hf _)) (fun hl => ?_)
    (fun _ hs => ?_) (hf _).isSized (Or.inr fun hm => ?_)
  · rw [(hf _).last] at hl
    exact hk.inner x hx hl
  · unfold Node.HasSize
    rw [(hf _).size]
    exact hs
  · unfold Node.IsMeasured
    rw [(hf _).measured]
    exact hm

theorem Kept.same (hs : q.tree.Sound) (hl : ∀ x ∈ B, q.tree.Live x) (hn : q.node = p.node)
    (ht : q.trail = p.trail) : Goes b B D h p q := by
  refine ⟨⟨⟨hk.ground, hs, hl, fun hx => ?_⟩, hk.scene, ?_, ?_, ?_⟩, ⟨[], ht, by simp⟩, ?_, ?_, ?_⟩
  · rw [hn]
    exact hk.core hx
  · rw [hn, ht]
    exact hk.tidy
  · rw [ht]
    exact hk.visits
  · intro x hx hne y hy hb
    rw [hn] at hne ⊢
    exact hk.inner x hx hne y hy hb
  all_goals rw [hn]
  · exact fun _ _ hs => hs
  · exact fun _ _ hs => hs
  · exact fun _ _ _ hm => hm

theorem Kept.count (f : Stats → Stats) : Goes b B D h p (p.count f) :=
  hk.same hk.sound hk.live rfl rfl

theorem Kept.tell (e : Event α) : Goes b B D h p (p.tell e) :=
  hk.same (hk.sound.tell e) hk.live rfl rfl

theorem Kept.record {v : Visit α} (hx : v.node ∈ B) (hv : Proper b.node (v :: p.trail) v) :
    Kept b B D (p.record v) := by
  have hmore : ∀ w ∈ p.trail, w ∈ v :: p.trail := fun w hw => List.mem_cons_of_mem v hw
  refine ⟨⟨hk.ground, hk.sound, hk.live, hk.core⟩, hk.scene, fun x hx => (hk.tidy x hx).mono
    fun hl => hl.mono hmore, fun w hw => ?_, hk.inner⟩
  rcases List.mem_cons.mp hw with rfl | hw
  · exact ⟨hx, hv⟩
  · exact ⟨(hk.visits w hw).1, (hk.visits w hw).2.imp_right (Or.imp_right fun hu => hu.mono hmore)⟩

omit hk in
/-- A request that was recorded is met in the end. -/
theorem Goes.recorded {v : Visit α} (hg : Goes b B D h (p.record v) q)
    (hv : v.request.performLayout = true → SizedFrom b D v.node q) : Goes b B D h p q := by
  obtain ⟨run, htrail, hrun⟩ := hg.trail
  refine ⟨hg.kept, ⟨run ++ [v], by rw [htrail]; simp [record], fun w hw hl => ?_⟩, hg.size,
    hg.sized, hg.measured⟩
  rcases List.mem_append.mp hw with hw | hw
  · exact hrun w hw hl
  · rw [List.mem_singleton.mp hw] at hl ⊢
    exact hv hl

theorem Kept.setPosition (hx : x ∈ B) (side : Side) (a : α) :
    Goes b B D h p (p.setPosition x side a) :=
  hk.write hx

theorem Kept.works (id : NodeId) (hw : Works (fun _ _ p => p) id (Places B) p q) :
    Goes b B D h p q := by
  induction hw with
  | refl => exact .refl hk
  | tail _ hd ih =>
    obtain ⟨t, ht, hd⟩ := hd
    refine ih.trans ?_
    cases hd with
    | place _ x hf =>
      refine ih.kept.write ht fun n => ?_
      rw [hf n]
      exact ⟨rfl, rfl, rfl, rfl, rfl, rfl, rfl⟩
    | tell => exact ih.kept.tell _
    | count => exact ih.kept.count _
    | note | overrun | heed | settle | base | number | clear | ask => exact ht.elim

theorem Kept.note (hx : x ∈ B) (condition : Bool) {f : Geometry α → Geometry α}
    (hf : ∀ n : Node α, Node.SameSizes n { n with geometry := f n.geometry } := by
      exact fun _ => ⟨rfl, rfl, rfl, rfl, rfl, rfl, rfl⟩) :
    Goes b B D h p (p.updateGeometryIf condition x f) := by
  unfold updateGeometryIf
  split
  · exact hk.write hx hf
  · exact .refl hk

theorem Kept.resolveSize (hx : x ∈ B) :
    Goes b B D h p (p.update x Node.resolveSize) ∧
      ((p.update x Node.resolveSize).node x).IsSized := by
  have ht := hk.tidy x hx
  refine ⟨hk.update hx (fun _ => rfl) ⟨ht.core.trans rfl, ht.measured, ht.memory, ht.last, ht.size,
    ht.basis⟩ (hk.inner x hx) (fun _ hs => hs) (fun _ => rfl) (Or.inr fun hm => hm), ?_⟩
  rw [node_update_self (hk.live x hx)]
  rfl

theorem Kept.setBasis (hx : x ∈ B) {basis : Extent α} (hb : ∀ a, basis = .known a → IsNumber a) :
    Goes b B D h p (p.setBasis x basis) := by
  have ht := hk.tidy x hx
  exact hk.update hx (fun _ => rfl) ⟨ht.core.trans rfl, ht.measured, ht.memory, ht.last, ht.size,
    hb⟩ (hk.inner x hx) (fun _ hs => hs) (fun hs => hs.congr rfl rfl) (Or.inr fun hm => hm)

theorem Kept.setMeasured (hx : x ∈ B) {width height : α}
    (hw : (b.node x).Fits (Exempt b D p.trail x) .width width)
    (hh : (b.node x).Fits (Exempt b D p.trail x) .height height) :
    Goes b B D h p (p.setMeasured x width height) ∧
      ((p.setMeasured x width height).node x).IsMeasured := by
  have ht := hk.tidy x hx
  have hsize : ∀ d, ∃ a, (⟨.of width, .of height⟩ : Size (Extent α)).get d = .known a ∧
      (b.node x).Fits (Exempt b D p.trail x) d a := by
    intro d
    cases d with
    | width => exact ⟨width, Extent.of_number hw.number, hw⟩
    | height => exact ⟨height, Extent.of_number hh.number, hh⟩
  have hknown : ∀ n : Node α, Node.IsMeasured
      { n with geometry := { n.geometry with measured := ⟨.of width, .of height⟩ } } := by
    intro n d
    obtain ⟨a, ha, -⟩ := hsize d
    exact ⟨a, ha⟩
  refine ⟨hk.update hx (fun _ => rfl) ⟨ht.core.trans rfl, fun d a ha => ?_, ht.memory, ht.last,
    ht.size, ht.basis⟩ (hk.inner x hx) (fun _ hs => hs) (fun hs => hs.congr rfl rfl)
    (Or.inr fun _ => hknown _), ?_⟩
  · obtain ⟨a', ha', hfit⟩ := hsize d
    rw [← Extent.known.inj (ha'.symm.trans ha)]
    exact hfit
  · rw [Pass.setMeasured, updateGeometry, node_update_self (hk.live x hx)]
    exact hknown _

end

theorem ite_goes {P : Prop} [Decidable P] (hq : P → Goes b B D h p q)
    (hu : ¬ P → Goes b B D h p u) : Goes b B D h p (if P then q else u) := by
  split
  · exact hq ‹_›
  · exact hu ‹_›

theorem foldl_goes {σ γ : Type} (pass : σ → Pass α) (P : γ → Pass α → Prop)
    {f : σ → γ → σ} {l : List γ} {s : σ} (hk : Kept b B D (pass s))
    (hpost : ∀ x ∈ l, ∀ {q u}, Goes b B D h q u → P x q → P x u)
    (hstep : ∀ r, ∀ x ∈ l, Goes b B D h (pass s) (pass r) →
      Goes b B D h (pass r) (pass (f r x)) ∧ P x (pass (f r x))) :
    Goes b B D h (pass s) (pass (l.foldl f s)) ∧ ∀ x ∈ l, P x (pass (l.foldl f s)) := by
  induction l generalizing s with
  | nil => exact ⟨.refl hk, by simp⟩
  | cons x l ih =>
    obtain ⟨hgo₁, hP₁⟩ := hstep s x (by simp) (.refl hk)
    obtain ⟨hgo₂, hP₂⟩ := ih hgo₁.kept (fun y hy => hpost y (by simp [hy]))
      (fun r y hy hgo => hstep r y (by simp [hy]) (hgo₁.trans hgo))
    refine ⟨hgo₁.trans hgo₂, fun y hy => ?_⟩
    rcases List.mem_cons.mp hy with rfl | hy
    · exact hpost _ (by simp) hgo₂ hP₁
    · exact hP₂ y hy

theorem walk_goes {σ γ : Type} (pass : σ → Pass α) {f : σ → γ → σ} {l : List γ} {s : σ}
    (hk : Kept b B D (pass s)) (hstep : ∀ r, ∀ x ∈ l, Goes b B D h (pass s) (pass r) →
      Goes b B D h (pass r) (pass (f r x))) : Goes b B D h (pass s) (pass (l.foldl f s)) :=
  (foldl_goes pass (fun _ _ => True) hk (fun _ _ _ _ _ _ => trivial) fun r x hx hg =>
    ⟨hstep r x hx hg, trivial⟩).1

end Pass

end Flexbox
