import Flexbox.Proofs.Copying
import Flexbox.Pass
import Mathlib.Logic.Relation

namespace Flexbox

variable {α : Type}

namespace Node

variable {n m k : Node α}

/-- What the solver does not write is the same on both nodes. -/
def SameCore (n m : Node α) : Prop :=
  m = { n with
    geometry := m.geometry
    line := m.line
    resolvedSize := m.resolvedSize
    hasNewLayout := m.hasNewLayout
    isDirty := m.isDirty }

theorem SameCore.refl (n : Node α) : SameCore n n := rfl

theorem SameCore.trans (h : SameCore n m) (h' : SameCore m k) : SameCore n k := by
  unfold SameCore at *
  rw [h'] at *
  rw [h]

theorem SameCore.links (h : SameCore n m) : Tree.SameLinks n m := by
  rw [h]
  exact ⟨rfl, rfl, rfl, Or.inl, fun hk => hk⟩

/-- What the host gave the node and who owns it is the same on both. -/
def Kin (n m : Node α) : Prop :=
  m = { n with
    geometry := m.geometry
    children := m.children
    sharedCount := m.sharedCount
    line := m.line
    resolvedSize := m.resolvedSize
    hasNewLayout := m.hasNewLayout
    isDirty := m.isDirty }

theorem Kin.trans (h : Kin n m) (h' : Kin m k) : Kin n k := by
  unfold Kin at *
  rw [h'] at *
  rw [h]

theorem Kin.symm (h : Kin n m) : Kin m n := by
  unfold Kin at *
  rw [h]

theorem SameCore.kin (h : SameCore n m) : Kin n m := by
  rw [h]
  rfl

end Node

/-- Closed under owned children, and no name outside is free. -/
structure Tree.Domain {α : Type} (t : Tree α) (S : Set NodeId) : Prop where
  owned : ∀ x ∈ S, ∀ c ∈ t.childrenOf x, t.ownerOf c = some x → c ∈ S
  unused : ∀ x, ¬ t.Live x → x ∈ S

/-- Closed under children, and no name outside is free. -/
structure Tree.Region {α : Type} (t : Tree α) (S : Set NodeId) : Prop where
  closed : ∀ x ∈ S, ∀ c ∈ t.childrenOf x, c ∈ S
  unused : ∀ x, ¬ t.Live x → x ∈ S

namespace Pass

variable {S : Set NodeId} {id c : NodeId}

/-- The pass stands on an arena of which `S` is a domain, and `id` is a node in it. -/
structure Admitted (S : Set NodeId) (p : Pass α) (id : NodeId) : Prop where
  sound : p.tree.Sound
  domain : p.tree.Domain S
  mem : id ∈ S
  live : p.tree.Live id

/-- The children of the node are in the domain too. -/
structure Held (S : Set NodeId) (p : Pass α) (id : NodeId) : Prop extends Admitted S p id where
  inside : ∀ c ∈ p.tree.childrenOf id, c ∈ S

/-- The pass stands on an arena of which `S` is a region, and `id` is a node in it. -/
structure Ready (S : Set NodeId) (p : Pass α) (id : NodeId) : Prop where
  sound : p.tree.Sound
  region : p.tree.Region S
  mem : id ∈ S
  live : p.tree.Live id

theorem node_of_find? {p : Pass α} {n : Node α} (hn : p.tree.find? id = some n) :
    p.node id = n := by
  rw [node, hn, Option.getD_some]

theorem node_eq {p : Pass α} (h : p.tree.Live id) : p.tree.find? id = some (p.node id) := by
  obtain ⟨n, hn⟩ := h
  rw [node_of_find? hn, hn]

theorem node_update {p : Pass α} (hl : p.tree.Live id) (f : Node α → Node α) (x : NodeId) :
    (p.update id f).node x = if x = id then f (p.node id) else p.node x := by
  have hn := node_eq hl
  unfold node update at *
  rw [Tree.find?_update]
  split
  · rename_i he
    rw [he, hn]
    rfl
  · rfl

theorem node_update_self {p : Pass α} (hl : p.tree.Live id) (f : Node α → Node α) :
    (p.update id f).node id = f (p.node id) := by
  rw [node_update hl, if_pos rfl]

theorem children_eq {p : Pass α} (h : p.tree.Live id) : p.children id = p.tree.childrenOf id := by
  obtain ⟨n, hn⟩ := h
  simp [children, node, hn, Tree.childrenOf_eq hn]

theorem Ready.univ {p : Pass α} (hs : p.tree.Sound) (hl : p.tree.Live id) :
    Ready Set.univ p id :=
  ⟨hs, ⟨fun _ _ _ _ => trivial, fun _ _ => trivial⟩, trivial, hl⟩

theorem Ready.admitted {p : Pass α} (h : Ready S p id) : Admitted S p id :=
  ⟨h.sound, ⟨fun x hx c hc _ => h.region.closed x hx c hc, h.region.unused⟩, h.mem, h.live⟩

theorem Ready.held {p : Pass α} (h : Ready S p id) : Held S p id :=
  ⟨h.admitted, h.region.closed id h.mem⟩

theorem Held.child {p : Pass α} (h : Held S p id) (hc : c ∈ p.children id) : Admitted S p c := by
  rw [children_eq h.live] at hc
  exact ⟨h.sound, h.domain, h.inside c hc, h.sound.arena.accounted.live hc⟩

theorem Ready.child {p : Pass α} (h : Ready S p id) (hc : c ∈ p.children id) : Ready S p c :=
  ⟨h.sound, h.region, (h.held.child hc).mem, (h.held.child hc).live⟩

variable [Scalar α] {p q : Pass α}

/-- One step of a pass inside a set of names. -/
inductive Step (S : Set NodeId) : Pass α → Pass α → Prop
  | update (p : Pass α) {id : NodeId} {f : Node α → Node α} (hid : id ∈ S)
      (hf : ∀ n, Node.SameCore n (f n)) : Step S p (p.update id f)
  | own (p : Pass α) {id : NodeId} (hid : id ∈ S) (hl : p.tree.Live id) :
      Step S p (p.ownChildren id)
  | tell (p : Pass α) (e : Event α) : Step S p (p.tell e)
  | record (p : Pass α) {v : Visit α} (hv : v.node ∈ S) : Step S p (p.record v)
  | count (p : Pass α) {f : Stats → Stats}
      (hf : ∀ s, s.maxMeasureCache ≤ (f s).maxMeasureCache) : Step S p (p.count f)

/-- Any number of steps. -/
def Moves (S : Set NodeId) : Pass α → Pass α → Prop := Relation.ReflTransGen (Step S)

theorem Moves.refl (p : Pass α) : Moves S p p := Relation.ReflTransGen.refl

theorem Moves.trans {r : Pass α} (h : Moves S p q) (h' : Moves S q r) : Moves S p r :=
  Relation.ReflTransGen.trans h h'

theorem Step.moves (h : Step S p q) : Moves S p q := Relation.ReflTransGen.single h

end Pass

namespace Tree

variable {t s : Tree α} {S : Set NodeId} {p : NodeId} {x : NodeId}

section

variable (h : t.Privatized p s)

include h

theorem Privatized.children_of_new (hp : t.Live p) {c : NodeId} (hx : ¬ t.Live x)
    (hc : c ∈ s.childrenOf x) : ∃ d ∈ t.childrenOf p, c ∈ t.childrenOf d := by
  obtain ⟨m, hm, -⟩ := mem_childrenOf.mp hc
  have hxk := (h.new x ⟨m, hm⟩).resolve_left hx
  obtain ⟨n, hn⟩ := hp
  obtain ⟨ks, j, hk, hcopies⟩ := h.self n hn
  rw [childrenOf_eq hk] at hxk
  obtain ⟨d, hd, k, i, hdk, hxi⟩ := exists_of_forall₂ hcopies hxk
  rw [childrenOf_eq hxi] at hc
  exact ⟨d, by rwa [childrenOf_eq hn], by rw [childrenOf_eq hdk]; exact hc⟩

theorem Privatized.childrenOf_other (hx : t.Live x) (hxp : x ≠ p) :
    s.childrenOf x = t.childrenOf x := by
  obtain ⟨n, hn⟩ := hx
  obtain ⟨j, hj⟩ := h.other x n hxp hn
  rw [childrenOf_eq hn, childrenOf_eq hj]

theorem Privatized.domain (ht : t.Arena) (hd : t.Domain S) : s.Domain S := by
  refine ⟨fun x hx c _ ho => ?_, fun x hx => hd.unused x fun hl => hx (h.live hl)⟩
  by_cases hcl : t.Live c
  · rw [h.ownerOf hcl] at ho
    exact hd.owned x hx c (ht.mem_of_ownerOf ho) ho
  · exact hd.unused c hcl

theorem Privatized.inside (ht : t.Arena) (hd : t.Domain S) (hp : p ∈ S) :
    ∀ c ∈ s.childrenOf p, c ∈ S := by
  intro c hc
  by_cases hcl : t.Live c
  · have ho : t.ownerOf c = some p := by
      rw [← h.ownerOf hcl]
      simpa [owns] using h.owned c hc
    exact hd.owned p hp c (ht.mem_of_ownerOf ho) ho
  · exact hd.unused c hcl

theorem Privatized.region (hr : t.Region S) (hp : p ∈ S) (hl : t.Live p) : s.Region S := by
  refine ⟨?_, fun x hx => hr.unused x fun hl => hx (h.live hl)⟩
  intro x hx c hc
  by_cases hxp : x = p
  · by_cases hcl : t.Live c
    · exact hr.closed p hp c (h.fresh c (hxp ▸ hc) hcl)
    · exact hr.unused c hcl
  by_cases hxl : t.Live x
  · rw [h.childrenOf_other hxl hxp] at hc
    exact hr.closed x hx c hc
  · obtain ⟨d, hd, hc⟩ := h.children_of_new hl hxl hc
    exact hr.closed d (hr.closed p hp d hd) c hc

theorem Privatized.outside (ht : t.Sound) (hs : s.Sound) (hr : t.Region S) (hp : p ∈ S)
    (hl : t.Live p) (hx : x ∉ S) : s.find? x = t.find? x := by
  have hxl : t.Live x := by
    by_contra hn
    exact hx (hr.unused x hn)
  obtain ⟨n, hn⟩ := hxl
  have hxp : x ≠ p := fun he => hx (he ▸ hp)
  obtain ⟨j, hj⟩ := h.other x n hxp hn
  have hsharers : s.sharersIn s.childrenOf x n.owner = t.sharersIn t.childrenOf x n.owner := by
    ext q
    rw [hs.arena.accounted.mem_sharersIn, ht.arena.accounted.mem_sharersIn]
    refine and_congr_left fun _ => ?_
    have hrs := h.region hr hp hl
    by_cases hq : q ∈ S
    · exact iff_of_false (fun hm => hx (hrs.closed q hq x hm)) fun hm => hx (hr.closed q hq x hm)
    · have hql : t.Live q := by
        by_contra hnq
        exact hq (hr.unused q hnq)
      rw [h.childrenOf_other hql fun he => hq (he ▸ hp)]
  have hcs := hs.arena.accounted.count hj
  have hct := ht.arena.accounted.count hn
  rw [hsharers, ← hct] at hcs
  rw [hj, hn, show j = n.sharedCount from hcs]

end

end Tree

namespace Pass

variable [Scalar α] {S : Set NodeId} {p q : Pass α} {id : NodeId}

theorem ownChildren_run (h : p.tree.Sound) (hl : p.tree.Live id) :
    ∃ s, p.ownChildren id = { p with tree := s } ∧ s.Sound ∧ p.tree.Privatized id s := by
  obtain ⟨s, hrun, hs, hp⟩ := Edit.ownChildren_run h hl
  exact ⟨s, by rw [Pass.ownChildren, hrun], hs, hp⟩

section

variable (h : Step S p q) {x : NodeId}

include h

theorem Step.sound (hs : p.tree.Sound) : q.tree.Sound := by
  cases h with
  | update _ hf => exact hs.update _ fun n _ => (hf n).links
  | own _ hl =>
    obtain ⟨s, he, hsound, -⟩ := ownChildren_run hs hl
    rw [he]
    exact hsound
  | tell e => exact hs.tell e
  | record | count => exact hs

theorem Step.live (hs : p.tree.Sound) (hx : p.tree.Live x) : q.tree.Live x := by
  cases h with
  | update => exact Tree.live_update.mpr hx
  | own _ hl =>
    obtain ⟨s, he, -, hp⟩ := ownChildren_run hs hl
    rw [he]
    exact hp.live hx
  | tell | record | count => exact hx

theorem Step.region (hs : p.tree.Sound) (hr : p.tree.Region S) : q.tree.Region S := by
  cases h with
  | update _ hf =>
    refine ⟨?_, fun x hx => hr.unused x fun hl => hx (Tree.live_update.mpr hl)⟩
    rw [Pass.update, Tree.childrenOf_update fun n _ => (hf n).links.children]
    exact hr.closed
  | own hid hl =>
    obtain ⟨s, he, -, hp⟩ := ownChildren_run hs hl
    rw [he]
    exact hp.region hr hid hl
  | tell | record | count => exact ⟨hr.closed, hr.unused⟩

theorem Step.outside (hs : p.tree.Sound) (hr : p.tree.Region S) (hx : x ∉ S) :
    q.tree.find? x = p.tree.find? x := by
  cases h with
  | update hid => exact Tree.find?_update_other _ _ fun he => hx (he ▸ hid)
  | own hid hl =>
    obtain ⟨s, he, hsound, hp⟩ := ownChildren_run hs hl
    rw [he]
    exact hp.outside hs hsound hr hid hl hx
  | tell | record | count => rfl

theorem Step.ready (hr : Ready S p id) : Ready S q id :=
  ⟨h.sound hr.sound, h.region hr.sound hr.region, hr.mem, h.live hr.sound hr.live⟩

theorem Step.domain (hs : p.tree.Sound) (hd : p.tree.Domain S) : q.tree.Domain S := by
  cases h with
  | update _ hf =>
    refine ⟨?_, fun x hx => hd.unused x fun hl => hx (Tree.live_update.mpr hl)⟩
    rw [Pass.update, Tree.childrenOf_update fun n _ => (hf n).links.children,
      Tree.ownerOf_update fun n _ => (hf n).links.owner]
    exact hd.owned
  | own _ hl =>
    obtain ⟨s, he, -, hp⟩ := ownChildren_run hs hl
    rw [he]
    exact hp.domain hs.arena hd
  | tell | record | count => exact ⟨hd.owned, hd.unused⟩

theorem Step.admitted (ha : Admitted S p id) : Admitted S q id :=
  ⟨h.sound ha.sound, h.domain ha.sound ha.domain, ha.mem, h.live ha.sound ha.live⟩

theorem Step.untouched (hs : p.tree.Sound) (hx : x ∉ S) {n : Node α}
    (hn : p.tree.find? x = some n) : ∃ j, q.tree.find? x = some { n with sharedCount := j } := by
  cases h with
  | update hid =>
    refine ⟨n.sharedCount, (Tree.find?_update_other _ _ ?_).trans hn⟩
    exact fun he => hx (he ▸ hid)
  | own hid hl =>
    obtain ⟨s, he, -, hp⟩ := ownChildren_run hs hl
    rw [he]
    exact hp.other x n (fun he => hx (he ▸ hid)) hn
  | tell | record | count => exact ⟨n.sharedCount, hn⟩

end

theorem Admitted.own (ha : Admitted S p id) : Held S (p.ownChildren id) id := by
  refine ⟨(Step.own p ha.mem ha.live).admitted ha, ?_⟩
  obtain ⟨s, he, -, hp⟩ := ownChildren_run ha.sound ha.live
  rw [he]
  exact hp.inside ha.sound.arena ha.domain ha.mem

theorem Step.held (h : Step S p q) (hh : Held S p id) : Held S q id := by
  refine ⟨h.admitted hh.toAdmitted, ?_⟩
  cases h with
  | update _ hf =>
    rw [Pass.update, Tree.childrenOf_update fun n _ => (hf n).links.children]
    exact hh.inside
  | @own x hid hl =>
    obtain ⟨s, he, -, hp⟩ := ownChildren_run hh.sound hl
    rw [he]
    by_cases hx : id = x
    · subst hx
      exact hp.inside hh.sound.arena hh.domain hid
    · rw [hp.childrenOf_other hh.live hx]
      exact hh.inside
  | tell | record | count => exact hh.inside

theorem Step.kin (h : Step S p q) (hs : p.tree.Sound) {x : NodeId} {n : Node α}
    (hn : p.tree.find? x = some n) :
    ∃ m, q.tree.find? x = some m ∧ Node.Kin n m := by
  cases h with
  | update _ hf =>
    rw [Pass.update, Tree.find?_update]
    split
    · exact ⟨_, by rw [hn]; rfl, (hf n).kin⟩
    · exact ⟨n, hn, rfl⟩
  | @own id _ hl =>
    obtain ⟨s, he, -, hp⟩ := ownChildren_run hs hl
    rw [he]
    by_cases hx : x = id
    · subst hx
      obtain ⟨ks, j, hk, -⟩ := hp.self n hn
      exact ⟨_, hk, rfl⟩
    · obtain ⟨j, hj⟩ := hp.other x n hx hn
      exact ⟨_, hj, rfl⟩
  | tell | record | count => exact ⟨n, hn, rfl⟩

theorem Moves.mono {T : Set NodeId} (h : Moves S p q) (hST : S ⊆ T) : Moves T p q := by
  refine Relation.ReflTransGen.mono (fun u w hstep => ?_) _ _ h
  cases hstep with
  | update hid hf => exact .update u (hST hid) hf
  | own hid hl => exact .own u (hST hid) hl
  | tell e => exact .tell u e
  | record hv => exact .record u (hST hv)
  | count hf => exact .count u hf

/-- Only names in the domain are visited. -/
theorem Moves.trail (h : Moves S p q) :
    ∃ run, q.trail = run ++ p.trail ∧ ∀ v ∈ run, v.node ∈ S := by
  induction h with
  | refl => exact ⟨[], rfl, by simp⟩
  | tail _ hstep ih =>
    obtain ⟨run, htrail, hrun⟩ := ih
    cases hstep with
    | @record v hv => exact ⟨v :: run, congrArg (v :: ·) htrail, by simpa using ⟨hv, hrun⟩⟩
    | update | own | tell | count => exact ⟨run, htrail, hrun⟩

section

variable (h : Moves S p q) {x : NodeId}

include h

theorem Moves.ready (hr : Ready S p id) : Ready S q id := by
  induction h with
  | refl => exact hr
  | tail _ hstep ih => exact hstep.ready ih

theorem Moves.admitted (ha : Admitted S p id) : Admitted S q id := by
  induction h with
  | refl => exact ha
  | tail _ hstep ih => exact hstep.admitted ih

theorem Moves.held (hh : Held S p id) : Held S q id := by
  induction h with
  | refl => exact hh
  | tail _ hstep ih => exact hstep.held ih

theorem Moves.sound (hs : p.tree.Sound) : q.tree.Sound := by
  induction h with
  | refl => exact hs
  | tail _ hstep ih => exact hstep.sound ih

theorem Moves.live (hs : p.tree.Sound) (hx : p.tree.Live x) : q.tree.Live x := by
  induction h with
  | refl => exact hx
  | tail hm hstep ih => exact hstep.live (Moves.sound hm hs) ih

theorem Moves.outside (hr : Ready S p id) (hx : x ∉ S) : q.tree.find? x = p.tree.find? x := by
  induction h with
  | refl => rfl
  | tail hm hstep ih =>
    have hq := Moves.ready hm hr
    rw [hstep.outside hq.sound hq.region hx, ih]

theorem Moves.untouched (hs : p.tree.Sound) (hx : x ∉ S) {n : Node α}
    (hn : p.tree.find? x = some n) : ∃ j, q.tree.find? x = some { n with sharedCount := j } := by
  induction h with
  | refl => exact ⟨n.sharedCount, hn⟩
  | tail hm hstep ih =>
    obtain ⟨j, hj⟩ := ih
    obtain ⟨i, hi⟩ := hstep.untouched (Moves.sound hm hs) hx hj
    exact ⟨i, hi⟩

theorem Moves.kin (hs : p.tree.Sound) {n : Node α} (hn : p.tree.find? x = some n) :
    ∃ m, q.tree.find? x = some m ∧ Node.Kin n m := by
  induction h with
  | refl => exact ⟨n, hn, rfl⟩
  | tail hm hstep ih =>
    obtain ⟨m, hm', hk⟩ := ih
    obtain ⟨k, hk', hkin⟩ := hstep.kin (Moves.sound hm hs) hm'
    exact ⟨k, hk', hk.trans hkin⟩

section

variable (hs : p.tree.Sound) (hx : p.tree.Live x)

include hs hx

theorem Moves.node_kin : Node.Kin (p.node x) (q.node x) := by
  obtain ⟨m, hfind, hkin⟩ := h.kin hs (node_eq hx)
  rwa [node_of_find? hfind]

theorem Moves.style : (q.node x).style = (p.node x).style := by
  rw [h.node_kin hs hx]

theorem Moves.kind : (q.node x).isHidden = (p.node x).isHidden ∧
    (q.node x).isAbsolute = (p.node x).isAbsolute ∧ (q.node x).isInFlow = (p.node x).isInFlow := by
  rw [Node.isInFlow, Node.isHidden, Node.isAbsolute, h.style hs hx]
  exact ⟨rfl, rfl, rfl⟩

theorem Moves.owner : (q.node x).owner = (p.node x).owner := by
  rw [h.node_kin hs hx]

end

end

end Pass

end Flexbox
