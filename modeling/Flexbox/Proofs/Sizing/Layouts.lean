import Flexbox.Proofs.Sizing.Visits

namespace Flexbox

variable {α : Type} [Scalar α]

open Scalar (IsNumber IsFinite Lawful)

namespace Node

variable {n m : Node α} {d : Dimension} {M x : α} {loose loose' : Prop}

theorem Capped.restyle (h : m.Capped d M) (hs : m.style = n.style) : n.Capped d M := by
  have hframe : m.frameFor = n.frameFor := by
    unfold frameFor leadingFrame trailingFrame leadingPadding trailingPadding leadingBorder
      trailingBorder
    rw [hs]
  exact ⟨hs ▸ h.upper, h.nonneg, h.finite, hs ▸ h.lower, hframe ▸ h.frame⟩

theorem Pinned.restyle (h : m.Pinned d M) (hs : m.style = n.style) : n.Pinned d M :=
  ⟨h.toCapped.restyle hs, hs ▸ h.same⟩

theorem Fits.restyle (h : Fits loose n d x) (hs : m.style = n.style) (hl : loose → loose') :
    Fits loose' m d x :=
  ⟨h.number, fun M hM => h.capped M (hM.restyle hs), fun M hM =>
    (h.pinned M (hM.restyle hs)).imp_left hl⟩

theorem Tidy.restyle {o : Node α} (h : Tidy loose False o n) (hs : m.style = n.style)
    (hmeasured : m.geometry.measured = n.geometry.measured)
    (hmemory : m.geometry.measurements = n.geometry.measurements)
    (hlast : m.geometry.lastLayout = n.geometry.lastLayout)
    (hbasis : m.geometry.flexBasis = n.geometry.flexBasis ∨ m.geometry.flexBasis = .undefined) :
    Tidy True False m m := by
  have hstyle : m.style = o.style := by rw [hs, h.core]
  refine ⟨.refl m, fun d x hx => ?_, fun e he => ?_, fun hl => ?_, fun hf => hf.elim,
    fun x hx => ?_⟩
  · rw [hmeasured] at hx
    exact (h.measured d x hx).restyle hstyle fun _ => trivial
  · rw [hmemory] at he
    exact fun d => (h.memory e he d).restyle hstyle fun _ => trivial
  · rw [hlast] at hl ⊢
    exact fun d => (h.last hl d).restyle hstyle fun _ => trivial
  · rcases hbasis with hb | hb
    · rw [hb] at hx
      exact h.basis x hx
    · rw [hb] at hx
      cases hx

theorem tidy_initial (hn : n.geometry = .initial) (loose shown : Prop) :
    Tidy loose shown n n := by
  refine ⟨.refl n, fun d x hx => ?_, fun e he => ?_, fun hl => ?_, fun _ d x hx => ?_,
    fun x hx => ?_⟩
  all_goals rw [hn] at *
  · cases d <;> cases hx
  · cases he
  · exact absurd rfl hl
  · cases d <;> cases hx
  · cases hx

end Node

namespace Pass

variable {b p q : Pass α} {B D : Set NodeId} {h : Nat} {x root : NodeId}

section Congruence

variable {node node' : NodeId → Node α} {trail : List (Visit α)} {u : Visit α}

section

variable (hcore : ∀ y ∈ B, Node.SameCore (node y) (node' y)) (hB : ∀ w ∈ trail, w.node ∈ B)

include hcore hB

theorem Unbalanced.congr (hx : x ∈ B) (h : Unbalanced node trail x) : Unbalanced node' trail x := by
  obtain ⟨width, htakes, hbal⟩ := h
  refine ⟨width, ?_, fun hb => hbal ((hcore x hx).balanced.mp hb)⟩
  cases htakes with
  | owner hv hx => exact .owner hv hx
  | @lister w hv hc =>
    have hw := hcore w.node (hB w hv)
    have hinner : (node w.node).innerSize .row w.request.width.size w.request.ownerWidth =
        (node' w.node).innerSize .row w.request.width.size w.request.ownerWidth := by
      rw [hw]
      rfl
    rw [hinner]
    refine .lister hv ?_
    rw [hw]
    exact hc

theorem Strained.congr (hx : x ∈ B) (h : Strained node trail x) : Strained node' trail x := by
  rcases h with h | ⟨w, hw, hwx, hbal⟩
  · exact Or.inl (h.congr hcore hB hx)
  · exact Or.inr ⟨w, hw, hwx, fun hb => hbal ((hcore x hx).balanced.mp hb)⟩

theorem Proper.congr (hu : u.node ∈ B) (h : Proper node trail u) : Proper node' trail u :=
  h.imp_right fun h => h.imp (hcore u.node hu).degenerate.mpr fun h => h.congr hcore hB hu

end

end Congruence

theorem Scene.kept (hs : Scene b B D) (hb : b.tree.Sound) (htrail : b.trail = [])
    (htidy : ∀ x ∈ B, Node.Tidy (x ∉ D) (x ∈ D) (b.node x) (b.node x))
    (hinner : ∀ x ∈ B, (b.node x).geometry.lastLayout ≠ .blank → SizedBelow b D x b) :
    Kept b B D b :=
  ⟨⟨hs.toGround, hb, hs.live, fun _ => .refl _⟩, hs, fun x hx => (htidy x hx).mono Or.inl,
    by simp [htrail], hinner⟩

variable [Lawful α]

theorem asked_root (hs : (b.node root).IsSized) (v : Viewport α) :
    Asked b p root (Tree.rootRequest (b.node root) v) := by
  by_cases hbal : (b.node root).Balanced v.width
  · have hsuits : ∀ (axis : FlexDirection) (size : Extent α), (b.node root).Suits axis.dimension
        ((b.node root).rootOffer axis size v.width) := fun _ _ => Node.rootOffer_suits hs hbal
    have hw := hsuits .row v.width
    have hh := hsuits .column v.height
    refine ⟨fun source => ?_, fun source d M hM => Or.inr ?_⟩
    · by_cases hdeg : (b.node root).Degenerate
      · exact Or.inr (Or.inl hdeg)
      · exact Or.inl ⟨hw.sound hdeg, hh.sound hdeg⟩
    · cases d with
      | width => exact hw.pinned M hM
      | height => exact hh.pinned M hM
  · have hun : ∀ source, Unbalanced b.node
        (⟨root, Tree.rootRequest (b.node root) v, source⟩ :: p.trail) root := fun source =>
      ⟨v.width, .owner
        List.mem_cons_self rfl, hbal⟩
    exact ⟨fun source => Or.inr (Or.inr (hun source)), fun source _ _ _ =>
      Or.inl (Or.inl (hun source))⟩

theorem Kept.visit (hk : Kept b B D b) (hroot : Member b B h root) {fuel : Nat} (hf : h < fuel)
    (hs : (b.node root).IsSized) (v : Viewport α) :
    Kept b B D (visit fuel root (Tree.rootRequest (b.node root) v) b).2 ∧
      SizedFrom b D root (visit fuel root (Tree.rootRequest (b.node root) v) b).2 := by
  have hgo := visit_goes b B D h hf hroot hk hs (asked_root hs v)
  obtain ⟨fuel, rfl⟩ := exists_pred hf
  obtain ⟨run, source, htrail, -⟩ :=
    (visit_answers hk.sound (hk.grounded hroot.mem hroot.deep) fuel _).trail
  obtain ⟨run', htrail', hrun⟩ := hgo.trail
  rw [List.append_cons] at htrail
  obtain rfl := List.append_cancel_right (htrail.symm.trans htrail')
  exact ⟨hgo.kept, hrun ⟨root, Tree.rootRequest (b.node root) v, source⟩ (by simp) rfl⟩

end Pass

namespace Tree

variable {s t u : Tree α} {root x y c : NodeId} {n k : Node α}
  {v : Viewport α} {r : Request α} {q : Pass α}

/-- What `root` reaches is listed by its owner alone, and no list is longer than slots can be
numbered. -/
structure Private (t : Tree α) (root : NodeId) : Prop where
  unshared : ∀ x c, t.Reaches root x → c ∈ t.childrenOf x → t.ownerOf c = some x
  few : ∀ x, t.Reaches root x → (t.childrenOf x).length ≤ 2 ^ 32

def Hides (t : Tree α) (x : NodeId) : Prop := ∃ n, t.find? x = some n ∧ n.isHidden = true

/-- Child lists lead from one node to the other by way of displayed nodes. -/
def Displays (t : Tree α) : NodeId → NodeId → Prop :=
  Relation.ReflTransGen fun p c => c ∈ t.childrenOf p ∧ ¬ t.Hides c

omit [Scalar α] in
theorem Displays.reaches (h : t.Displays x y) : t.Reaches x y :=
  Relation.ReflTransGen.mono (fun _ _ hc => hc.1) x y h

omit [Scalar α] in
theorem Private.displayed (hp : t.Private root) (hg : t.Grounded root) (hy : t.Displays root y)
    (hx : t.Reaches root x) (hc : c ∈ t.childrenOf x) (hr : t.Reaches c y) : ¬ t.Hides c := by
  induction hy with
  | refl => exact absurd (Relation.TransGen.tail' hx hc |>.trans_left hr) hg.not_below
  | @tail y z _ hz ih =>
    rcases Relation.ReflTransGen.cases_tail hr with rfl | ⟨w, hw, hzw⟩
    · exact hz.2
    · have hroot : t.Reaches root w := (hx.tail hc).trans hw
      have howner := hp.unshared w z hroot hzw
      rw [hp.unshared y z (Displays.reaches ‹_›) hz.1] at howner
      exact ih (Option.some.inj howner ▸ hw)

theorem Private.primed (hp : t.Private root) : (t.primed root).Private root := by
  have hshape := primed_shape t root
  have howner : (t.primed root).ownerOf = t.ownerOf := ownerOf_update fun _ _ => rfl
  refine ⟨fun x c hx hc => ?_, fun x hx => ?_⟩
  · rw [howner]
    rw [hshape.reaches] at hx
    rw [hshape.children] at hc
    exact hp.unshared x c hx hc
  · rw [hshape.children]
    rw [hshape.reaches] at hx
    exact hp.few x hx

theorem hides_primed : (t.primed root).Hides x ↔ t.Hides x := by
  have hfind : ∀ y, ((t.primed root).find? y).map Node.isHidden =
      (t.find? y).map Node.isHidden := by
    intro y
    change ((t.update root Node.resolveSize).find? y).map Node.isHidden = _
    rw [find?_update]
    split
    · rw [Option.map_map]
      rfl
    · rfl
  have hiff : ∀ t : Tree α, t.Hides x ↔ (t.find? x).map Node.isHidden = some true := fun t =>
    Option.map_eq_some_iff.symm
  rw [hiff, hiff, hfind]

theorem displays_primed : (t.primed root).Displays = t.Displays := by
  unfold Displays
  rw [(primed_shape t root).children]
  simp only [hides_primed]

theorem children_start (t : Tree α) : (Pass.start t .initial).children = t.childrenOf := by
  funext x
  rw [Pass.children, Pass.node, childrenOf, Pass.start]
  cases t.find? x <;> rfl

theorem Private.scene (hp : t.Private root) (ht : t.Sound) (hg : t.Grounded root)
    {D : Set NodeId} (hD : ∀ x ∈ D, t.Displays root x) :
    Pass.Scene (Pass.start t .initial) {x | t.Reaches root x} D := by
  have hlive : ∀ x, t.Reaches root x → t.Live x := fun x hx => reached_live ht hg.live hx
  have hnode : ∀ x, t.Reaches root x → t.find? x = some ((Pass.start t .initial).node x) :=
    fun x hx => Pass.node_eq (p := Pass.start t .initial) (hlive x hx)
  refine ⟨⟨hlive, ?_, ?_⟩, fun x hx => ht.arena.leaf (hnode x hx), ?_, ?_⟩
  all_goals rw [children_start]
  · exact fun x hx c hc => Relation.ReflTransGen.tail hx hc
  · intro x hx c hc
    rw [← hp.unshared x c hx hc, ownerOf_eq (hnode c (Relation.ReflTransGen.tail hx hc))]
  · exact hp.few
  · exact fun x hx c hc hhid y hy hr => hp.displayed hg (hD y hy) hx hc hr
      ⟨_, hnode c (Relation.ReflTransGen.tail hx hc), hhid⟩

theorem runPass_find?
    (hn : (t.rootVisit root r).2.tree.Live root)
    (hx : (t.rootVisit root r).2.tree.find? x = some n) :
    ∃ position size, (t.runPass root v r .initial).tree.find? x = some
        { n with geometry := { n.geometry with position := position, size := size } } ∧
      ∀ m, (t.rootVisit root r).2.tree.find? root =
        some m → m.HasNoGrid → size = n.geometry.size := by
  obtain ⟨m, hm⟩ := hn
  cases hc : (t.rootVisit root r).1 with
  | false =>
    rw [runPass_recalled hc]
    exact ⟨n.geometry.position, n.geometry.size, hx, fun _ _ _ => rfl⟩
  | true =>
    rw [runPass_computed hc hm]
    have hplaced : ∃ position, ((Pass.visit (t.slots.size + 1) root r
        (Pass.start t .initial)).2.tree.update root fun k =>
          { k with geometry := k.placed k.geometry.direction v.width v.height v.width }).find? x =
        some { n with geometry := { n.geometry with position := position } } := by
      rw [find?_update]
      split
      · rw [hx]
        exact ⟨_, rfl⟩
      · exact ⟨n.geometry.position, hx⟩
    obtain ⟨position, hplaced⟩ := hplaced
    obtain ⟨position', size, hsnap, hkeeps⟩ := find?_snap hplaced m.config.scale root 0
    refine ⟨position', size, hsnap, fun k hk hgrid => hkeeps ?_⟩
    obtain rfl := Option.some.inj (hm.symm.trans hk)
    exact hgrid

section OnePass

variable [Lawful α] {D : Set NodeId}

theorem runPass_tidy (hg : t.Grounded root)
    (hk : Pass.Kept (Pass.start t .initial) {x | t.Reaches root x} D (Pass.start t .initial))
    (hn : t.find? root = some n) (hs : n.IsSized) (v : Viewport α) {q : Pass α}
    (hq : t.runPass root v (rootRequest n v) .initial = q) :
    (∀ u ∈ q.trail, t.Reaches root u.node ∧ Pass.Proper (Pass.start t .initial).node q.trail u) ∧
    ∀ x, t.Reaches root x → ∃ m, q.tree.find? x = some m ∧
      Node.Tidy (Pass.Exempt (Pass.start t .initial) D q.trail x) (x ∈ D ∧ n.HasNoGrid)
        ((Pass.start t .initial).node x) m ∧
      (x ∈ D → n.HasNoGrid → m.HasSize) := by
  subst hq
  have hroot : (Pass.start t .initial).node root = n := by
    rw [Pass.node, Pass.start, hn]
    rfl
  obtain ⟨hkept, hsized⟩ := hk.visit ⟨.refl, hg.unfold_slots⟩ (Nat.lt_succ_self _) (hroot ▸ hs) v
  rw [hroot] at hkept hsized
  have hnode := Pass.node_eq (hkept.live root .refl)
  have hgrid : n.HasNoGrid → Node.HasNoGrid ((Pass.visit (t.slots.size + 1) root
      (rootRequest n v) (Pass.start t .initial)).2.node root) := by
    rw [Node.HasNoGrid, Node.HasNoGrid, hkept.core .refl, hroot]
    exact id
  rw [(runPass_asked t root v (rootRequest n v)).1]
  refine ⟨hkept.visits, fun x hx => ?_⟩
  obtain ⟨position, size, hx', hsize⟩ := runPass_find? (hkept.live root .refl)
    (Pass.node_eq (hkept.live x hx))
  have htidy := hkept.tidy x hx
  refine ⟨_, hx', ⟨htidy.core.trans rfl, htidy.measured, htidy.memory, htidy.last, ?_,
    htidy.basis⟩, fun hD hno => ?_⟩
  · rintro ⟨hD, hno⟩
    rw [hsize _ hnode (hgrid hno)]
    exact htidy.size hD
  · unfold Node.HasSize
    rw [hsize _ hnode (hgrid hno)]
    refine hsized x hD ?_
    rw [children_start]
    exact hx

theorem laidOut_tidy (ht : t.Sound) (hg : t.Grounded root)
    (hk : Pass.Kept (Pass.start t .initial) {x | t.Reaches root x} D (Pass.start t .initial))
    (hn : t.find? root = some n) (hs : n.IsSized) (v : Viewport α)
    (hx : t.Reaches root x) :
    ∃ m, (t.laidOut root v (rootRequest n v)).find? x = some m ∧
      Node.Tidy (Pass.Exempt (Pass.start t .initial) D
        (t.runPass root v (rootRequest n v) .initial).trail x) (x ∈ D ∧ n.HasNoGrid)
        ((Pass.start t .initial).node x) m ∧
      (x ∈ D → n.HasNoGrid → m.HasSize) := by
  have hrun := (runPass_tidy hg hk hn hs v rfl).2
  have hreach : (t.runPass root v (rootRequest n v) .initial).tree.Reaches root x := by
    refine (reaches_agree (P := fun x => t.Reaches root x) (fun y hy => ?_)
      (fun _ _ hx hc => hx.tail hc) .refl).mpr hx
    obtain ⟨m, hm, htidy, -⟩ := hrun y hy
    rw [childrenOf_eq hm, htidy.core, ← children_start]
    rfl
  obtain ⟨m, hm, htidy, hsize⟩ := hrun x hx
  exact ⟨_, (find?_clean (runPass_grounded ht hg) hm 0).2 hreach,
    ⟨htidy.core.trans rfl, htidy.measured, htidy.memory, htidy.last, htidy.size, htidy.basis⟩,
    hsize⟩

end OnePass

/-- A root that a pass can be run on, with nothing below it that is shared or that remembers a size
beyond the bounds of its box. -/
structure Orderly (t : Tree α) (root : NodeId) : Prop where
  sound : t.Sound
  grounded : t.Grounded root
  own : t.Private root
  tidy : ∀ x n, t.Reaches root x → t.find? x = some n → Node.Tidy True False n n

section

variable (h : t.Orderly root) {f : Node α → Node α}

include h

theorem Orderly.kept : Pass.Kept (Pass.start t .initial)
    {x | t.Reaches root x} ∅ (Pass.start t .initial) := by
  refine (h.own.scene h.sound h.grounded (by simp)).kept h.sound rfl (fun x hx => ?_) (by
    intro x _ _ y hy
    cases hy)
  have hnode := Pass.node_eq (p := Pass.start t .initial) (reached_live h.sound h.grounded.live hx)
  simpa using h.tidy x _ hx hnode

theorem Orderly.update (id : NodeId) (hf : ∀ n, SameLinks n (f n))
    (htidy : ∀ n, Node.Tidy True False n n → Node.Tidy True False (f n) (f n)) :
    (t.update id f).Orderly root := by
  have hshape : t.SameShape (t.update id f) := SameShape.update t id fun n => (hf n).children
  have howner : (t.update id f).ownerOf = t.ownerOf := ownerOf_update fun n _ => (hf n).owner
  refine ⟨h.sound.update id fun n _ => hf n, hshape.grounded.mpr h.grounded, ⟨?_, ?_⟩, ?_⟩
  all_goals rw [hshape.reaches]
  · rw [howner, hshape.children]
    exact h.own.unshared
  · rw [hshape.children]
    exact h.own.few
  · intro x n hx hn
    obtain ⟨k, -, hk, rfl⟩ | ⟨-, hn⟩ := find?_update_cases hn
    · exact htidy k (h.tidy x k hx hk)
    · exact h.tidy x n hx hn

theorem Orderly.sweepAll (hf : ∀ n, SameLinks n (f n))
    (htidy : ∀ n, Node.Tidy True False n n → Node.Tidy True False (f n) (f n)) (id : NodeId) :
    (t.sweepAll f id 0).Orderly root :=
  sweep_induct (S := Set.univ) (P := fun s => s.Orderly root) (fun _ _ _ _ _ _ => trivial)
    (fun _ _ id _ hs => hs.update id hf htidy) _ _ trivial h

theorem Orderly.congr (hs : s.Sound) (hfind : ∀ x, s.find? x = t.find? x) : s.Orderly root := by
  have hshape : t.SameShape s :=
    ⟨fun x => by simp only [Live, hfind], funext fun x => by simp only [childrenOf, hfind]⟩
  have howner : s.ownerOf = t.ownerOf := funext fun x => by simp only [ownerOf, hfind]
  refine ⟨hs, hshape.grounded.mpr h.grounded, ⟨?_, ?_⟩, ?_⟩
  all_goals rw [hshape.reaches]
  · rw [howner, hshape.children]
    exact h.own.unshared
  · rw [hshape.children]
    exact h.own.few
  · intro x n hx hn
    rw [hfind] at hn
    exact h.tidy x n hx hn

theorem Orderly.primed : (t.primed root).Orderly root :=
  (h.update root (f := Node.resolveSize) (fun _ => ⟨rfl, rfl, rfl, Or.inl, fun hk => hk⟩)
    fun _ hn => hn.restyle rfl rfl rfl rfl (Or.inl rfl)).congr (h.sound.primed root) fun _ => rfl

theorem Orderly.laidOut [Lawful α] (hn : t.find? root = some n) (hs : n.IsSized) (v : Viewport α) :
    (t.laidOut root v (rootRequest n v)).Orderly root := by
  have hfind : ∀ x, t.Reaches root x → _ := fun x hx =>
    laidOut_tidy h.sound h.grounded h.kept hn hs v hx
  have hchildren : ∀ x, t.Reaches root x →
      (t.laidOut root v (rootRequest n v)).childrenOf x = t.childrenOf x := by
    intro x hx
    obtain ⟨m, hm, htidy, -⟩ := hfind x hx
    rw [childrenOf_eq hm, htidy.core, ← children_start]
    rfl
  have howner : ∀ x, t.Reaches root x →
      (t.laidOut root v (rootRequest n v)).ownerOf x = t.ownerOf x := by
    intro x hx
    obtain ⟨m, hm, htidy, -⟩ := hfind x hx
    have hx := Pass.node_eq (p := Pass.start t .initial) (reached_live h.sound h.grounded.live hx)
    rw [ownerOf_eq hm, htidy.core, ownerOf_eq (t := t) hx]
  have hreach : ∀ {x}, (t.laidOut root v (rootRequest n v)).Reaches root x ↔ t.Reaches root x :=
    reaches_agree hchildren (fun _ _ hx hc => hx.tail hc) .refl
  refine ⟨laidOut_sound h.sound h.grounded.live, laidOut_grounded h.sound h.grounded,
    ⟨fun x c hx hc => ?_, fun x hx => ?_⟩, fun x k hx hk => ?_⟩
  all_goals rw [hreach] at hx
  · rw [hchildren x hx] at hc
    rw [howner c (hx.tail hc), h.own.unshared x c hx hc]
  · rw [hchildren x hx]
    exact h.own.few x hx
  · obtain ⟨m, hm, htidy, -⟩ := hfind x hx
    obtain rfl := Option.some.inj (hk.symm.trans hm)
    have htidy : Node.Tidy _ False _ k :=
      ⟨htidy.core, htidy.measured, htidy.memory, htidy.last, fun hf => hf.elim, htidy.basis⟩
    exact htidy.restyle rfl rfl rfl rfl (Or.inl rfl)

end

omit [Scalar α] in
theorem Traced.reached {R : NodeId → NodeId → Prop} {copy : NodeId}
    (h : Traced t u s [root] R) (hc : R root copy) (hx : s.Reaches copy x) : ∃ a, R a x := by
  induction hx with
  | refl => exact ⟨root, hc⟩
  | @tail y z _ hz ih =>
    obtain ⟨a, ha⟩ := ih
    obtain ⟨m, o, ds, -, hy, hds⟩ := h.copy ha
    rw [childrenOf_eq hy] at hz
    obtain ⟨i, hi, rfl⟩ := List.mem_iff_getElem.mp hz
    exact ⟨_, hds.get (hds.length_eq ▸ hi) hi⟩

theorem Orderly.copy {R : NodeId → NodeId → Prop} {copy : NodeId} (h : t.Orderly root)
    (hs : t.Beside s copy) (htraced : Traced t t s [root] R) (hcopy : R root copy) :
    s.Orderly copy := by
  have hfrom : ∀ x, s.Reaches copy x → ∃ a m o ds, t.Reaches root a ∧ t.find? a = some m ∧
      s.find? x = some { m with owner := o, sharedCount := 0, children := ds } ∧
      ds.length = m.children.length := by
    intro x hx
    obtain ⟨a, ha⟩ := htraced.reached hcopy hx
    obtain ⟨m, o, ds, hm, hx', hds⟩ := htraced.copy ha
    obtain ⟨c, hc, hr⟩ := htraced.below ha
    obtain rfl := List.mem_singleton.mp hc
    exact ⟨a, m, o, ds, hr, hm, hx', hds.length_eq.symm⟩
  refine ⟨hs.sound, hs.grounded, ⟨fun x c hx hc => ?_, fun x hx => ?_⟩, fun x k hx hk => ?_⟩
  · obtain ⟨a, m, o, ds, -, -, hc', -⟩ := hfrom c (hx.tail hc)
    by_contra howns
    exact Nat.lt_irrefl 0 (hs.sound.arena.sharedCount_pos hc' hc (by simpa [owns] using howns))
  · obtain ⟨a, m, o, ds, ha, hm, hx', hlen⟩ := hfrom x hx
    have hfew := h.own.few a ha
    rw [childrenOf_eq hm] at hfew
    rw [childrenOf_eq hx']
    exact hlen ▸ hfew
  · obtain ⟨a, m, o, ds, ha, hm, hx', -⟩ := hfrom x hx
    obtain rfl := Option.some.inj (hk.symm.trans hx')
    exact (h.tidy a m ha hm).restyle rfl rfl rfl rfl (Or.inl rfl)

theorem Orderly.plain (h : t.Orderly root) : (t.plain root).Orderly root := by
  have hplain : (t.withoutLegacyStretch root 0).Orderly root :=
    h.sweepAll (f := fun n => { n with config := { n.config with legacyStretch := false } })
      (fun _ => ⟨rfl, rfl, rfl, Or.inl, fun hk => hk⟩)
      (fun _ hn => hn.restyle rfl rfl rfl rfl (Or.inl rfl)) root
  have hsoiled := hplain.sweepAll (f := Node.soiled)
    (fun _ => ⟨rfl, rfl, rfl, Or.inl, fun hk => hk⟩)
    (fun _ hn => hn.restyle rfl rfl rfl rfl (Or.inr rfl)) root
  exact hsoiled.primed

/-- The passes of a layout of `root`, which is the node `n`: its own, and the one over a copy that
the outcome is compared with. -/
inductive LayoutPass (t : Tree α) (root : NodeId) (n : Node α) (v : Viewport α) : Pass α → Prop
  | own : LayoutPass t root n v
      ((t.primed root).runPass root v (rootRequest n.resolveSize v) .initial)
  | compared {w s : Tree α} {copy : NodeId}
      (hlog : (Edit.logTree n.config root 0).apply
        ((t.primed root).laidOut root v (rootRequest n.resolveSize v)) = (.ok ⟨⟩, w))
      (hclone : (Edit.deepClone root 0).apply w = (.ok copy, s)) :
      LayoutPass t root n v
        ((s.plain copy).runPass copy v (rootRequest n.resolveSize v) .initial)

theorem rootRequest_restyle (hs : k.style = n.style) (v : Viewport α) :
    rootRequest k.resolveSize v = rootRequest n.resolveSize v := by
  cases k
  cases n
  cases hs
  rfl

theorem find?_plain {copy : NodeId} (hn : t.find? copy = some n) :
    ∃ k : Node α, (t.plain copy).find? copy = some k.resolveSize ∧ k.style = n.style := by
  have hstyle : ((((t.withoutLegacyStretch copy 0).sweepAll Node.soiled copy 0).find? copy).map
      Node.style) = (t.find? copy).map Node.style :=
    (map_find?_sweep _ _ (by intros; rfl) _ _ _ _).trans
      (map_find?_sweep _ _ (by intros; rfl) _ _ _ _)
  rw [hn] at hstyle
  obtain ⟨k, hk, hstyle⟩ := Option.map_eq_some_iff.mp hstyle
  exact ⟨k, find?_primed_root hk, hstyle⟩

theorem Orderly.proper [Lawful α] (h : t.Orderly root) (hn : t.find? root = some n) (hs : n.IsSized)
    (v : Viewport α) (hq : t.runPass root v (rootRequest n v) .initial = q) :
    ∀ u ∈ q.trail, Pass.Proper q.node q.trail u := by
  obtain ⟨htrail, hfind⟩ := runPass_tidy h.grounded h.kept hn hs v hq
  refine fun u hu => (htrail u hu).2.congr (fun x hx => ?_)
    (fun w hw => (htrail w hw).1) (htrail u hu).1
  obtain ⟨m, hm, htidy, -⟩ := hfind x hx
  rw [show q.node x = m by rw [Pass.node, hm]; rfl]
  exact htidy.core

theorem Orderly.layoutPass_proper [Lawful α] (h : t.Orderly root) (hn : t.find? root = some n)
    (hq : t.LayoutPass root n v q) : ∀ u ∈ q.trail, Pass.Proper q.node q.trail u := by
  have hprimed := find?_primed_root hn
  have hsized : n.resolveSize.IsSized := rfl
  cases hq with
  | own => exact h.primed.proper hprimed hsized v rfl
  | @compared w s copy hlog hclone =>
    have hlaid := h.primed.laidOut hprimed hsized v
    obtain ⟨w', hlogged, hw'⟩ := Edit.logTree_run hlaid.grounded n.config
    obtain rfl : w' = w := congrArg Prod.snd ((hw' 0).symm.trans hlog)
    have hfind := hlogged.find?
    have hlaid := hlaid.congr (hlogged.sound hlaid.sound) hfind
    obtain ⟨copy', s', R, hs', hcloned, htraced, hcopy⟩ :=
      Edit.deepClone_run hlaid.sound.ordered hlaid.grounded
    have hsame := (hs' 0).symm.trans hclone
    obtain rfl : copy' = copy := Except.ok.inj (congrArg Prod.fst hsame)
    obtain rfl : s' = s := congrArg Prod.snd hsame
    have hbeside := hcloned.beside hlaid.sound
      ⟨w'.slots.size, by rw [htraced.unfold hcopy]; exact hlaid.grounded.unfold_slots⟩
    obtain ⟨m, o, ds, hm, hk, -⟩ := htraced.copy hcopy
    obtain ⟨k, hk, hstyle⟩ := find?_plain hk
    have hroot : k.style = n.style := by
      obtain ⟨m', hm', htidy, -⟩ := laidOut_tidy h.primed.sound h.primed.grounded h.primed.kept
        hprimed hsized v .refl
      rw [hfind] at hm
      obtain rfl := Option.some.inj (hm.symm.trans hm')
      rw [hstyle]
      change m.style = n.style
      rw [htidy.core, Pass.node, Pass.start, hprimed]
      rfl
    rw [← rootRequest_restyle hroot]
    exact (hlaid.copy hbeside htraced hcopy).plain.proper hk rfl v rfl

def Untouched (t : Tree α) (root : NodeId) : Prop :=
  ∀ x n, t.Reaches root x → t.find? x = some n → n.geometry = .initial

section

variable (h : t.Untouched root) (ht : t.Sound) (hg : t.Grounded root) (hp : t.Private root)

include h ht hg hp

theorem Untouched.orderly : t.Orderly root :=
  ⟨ht, hg, hp, fun x n hx hn => Node.tidy_initial (h x n hx hn) _ _⟩

theorem Untouched.kept : Pass.Kept (Pass.start (t.primed root) .initial)
      {x | (t.primed root).Reaches root x} {x | t.Displays root x}
      (Pass.start (t.primed root) .initial) := by
  have hgeometry : ∀ x, (t.primed root).Reaches root x →
      ((Pass.start (t.primed root) .initial).node x).geometry = .initial := by
    intro x hx
    rw [(primed_shape t root).reaches] at hx
    obtain ⟨n, hn⟩ := reached_live ht hg.live hx
    obtain ⟨size, hnode⟩ := node_primed hn root
    rw [hnode]
    exact h x n hx hn
  refine (hp.primed.scene (ht.primed root) (primed_grounded.mpr hg) (fun x hx => ?_)).kept
    (ht.primed root) rfl (fun x hx => Node.tidy_initial (hgeometry x hx) _ _) fun x hx hl => ?_
  · rw [displays_primed]
    exact hx
  · rw [hgeometry x hx] at hl
    exact absurd rfl hl

theorem Untouched.sizes_fit [Lawful α] (hn : t.find? root = some n) (hgrid : n.HasNoGrid)
    (v : Viewport α) {q : Pass α}
    (hq : (t.primed root).runPass root v (rootRequest n.resolveSize v) .initial = q)
    (hs : Settled ((t.primed root).laidOut root v (rootRequest n.resolveSize v)) s root)
    (hx : t.Displays root x) :
    ∃ k m, t.find? x = some k ∧ s.find? x = some m ∧ ∀ d, ∃ a,
      m.geometry.size.get d = .known a ∧ Node.Fits (Pass.Strained q.node q.trail x) k d a := by
  have hkept := h.kept ht hg hp
  have hprimed := find?_primed_root hn
  have hg' : (t.primed root).Grounded root := primed_grounded.mpr hg
  have hreach : (t.primed root).Reaches root x := by
    rw [(primed_shape t root).reaches]
    exact hx.reaches
  obtain ⟨k, hk⟩ := reached_live ht hg.live hx.reaches
  obtain ⟨width, hnode⟩ := node_primed hk root
  obtain ⟨htrail, hfind⟩ := runPass_tidy hg' hkept hprimed rfl v hq
  obtain ⟨m, hm, htidy, hsize⟩ := laidOut_tidy (ht.primed root) hg' hkept hprimed rfl v hreach
  rw [hq] at htidy
  have hfits : ∀ d, ∃ a, m.geometry.size.get d = .known a ∧
      Node.Fits (Pass.Strained q.node q.trail x) k d a := by
    intro d
    obtain ⟨a, ha⟩ := hsize hx hgrid d
    refine ⟨a, ha, (htidy.size ⟨hx, hgrid⟩ d a ha).restyle (by rw [hnode]) fun hloose => ?_⟩
    refine (hloose.resolve_left fun hno => hno hx).congr
      (fun y hy => ?_) (fun w hw => (htrail w hw).1)
      hreach
    obtain ⟨l, hl, htidy, -⟩ := hfind y hy
    rw [show q.node y = l by rw [Pass.node, hl]; rfl]
    exact htidy.core
  by_cases hroot : x = root
  · subst hroot
    obtain ⟨matters, hm⟩ := hs.find?_root hm
    exact ⟨k, _, hk, hm, hfits⟩
  · exact ⟨k, m, hk, (hs.find?_other hroot).trans hm, hfits⟩

end

end Tree

end Flexbox
