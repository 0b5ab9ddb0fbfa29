import Flexbox.Proofs.Mirror.Passes

namespace Flexbox

variable {α : Type}

namespace Node

variable {n m : Node α}

theorem Reflects.leads_column (h : n.Reflects m) (side : Side) (hside : side.mirror = side) :
    n.Leads m side := by
  obtain ⟨_, _, _, rfl⟩ := h
  cases side with
  | left | right => cases hside
  | top | bottom => rfl

theorem Leads.setPosition {s : Side} (h : n.Leads m s) (side : Side) {a b : α}
    (hb : s = side → b = a) :
    Leads { n with geometry := n.geometry.setPosition side a }
      { m with geometry := m.geometry.setPosition side.mirror b } s := by
  unfold Leads at h ⊢
  change (Offsets.set _ side.mirror b).get s.mirror = (Offsets.set _ side a).get s
  rw [Offsets.get_set, Offsets.get_set]
  by_cases hs : s = side
  · rw [if_pos hs, if_pos (congrArg Side.mirror hs), hb hs]
  · have hs' : s.mirror ≠ side.mirror := fun he => hs (by
      rw [← s.mirror_mirror, he, side.mirror_mirror])
    rw [if_neg hs, if_neg hs', h]

theorem resolveDirection_undirected (h : n.style.Undirected) (direction : Direction)
    (hd : direction ≠ .inherit) : n.resolveDirection direction = direction := by
  unfold resolveDirection
  rw [h.direction]
  cases direction <;> first | rfl | exact absurd rfl hd

theorem Reflects.undirected (h : n.Reflects m) (hu : n.style.Undirected) : m.style.Undirected := by
  obtain ⟨_, _, _, rfl⟩ := h
  exact ⟨hu.margin, hu.position, hu.padding, hu.border, hu.direction⟩

end Node

namespace Pass

variable [Scalar α] {S : Set NodeId} {h : Nat} {p p' q q' u u' : Pass α} {x y z : NodeId}
  {c : Container α} {xs : List NodeId} {k : Nat}

/-- A child of `z` that passes to a depth of `h` may visit. -/
structure Kid (S : Set NodeId) (h : Nat) (p : Pass α) (z x : NodeId) : Prop where
  mem : x ∈ S
  live : p.tree.Live x
  deep : (p.tree.unfold h x).isSome
  owner : (p.node x).owner = some z

/-- A container that is laid out left to right in the first pass, with the children `xs`, all its
own. The container itself is out of reach of visits to a depth of `h`. -/
structure Host (S : Set NodeId) (h : Nat) (c : Container α) (xs : List NodeId)
    (p p' : Pass α) : Prop where
  mirrored : Mirrored S p p'
  mem : c.id ∈ S
  live : p.tree.Live c.id
  high : ¬ (p.tree.unfold h c.id).isSome
  direction : (p.node c.id).geometry.direction = .ltr
  facing : c.direction = .ltr
  starts : ∀ axis, axis = c.mainAxis ∨ axis = c.crossAxis → axis.isRow = true →
    p.side c.id = axis.leading
  children : p.children c.id = xs
  kids : ∀ x ∈ xs, Kid S h p c.id x

section

variable (ho : Onward S h p p' q q')

include ho

theorem Onward.kid (hk : Kid S k p z x) : Kid S k q z x := by
  have hs := ho.start.sound
  refine ⟨hk.mem, ho.moves.live hs hk.live, ?_, ?_⟩
  · rw [ho.moves.unfold hs hk.live]
    exact hk.deep
  · rw [ho.moves.owner hs hk.live, hk.owner]

theorem Onward.children (hz : p.tree.Live z) (hk : ∀ x ∈ p.children z, Kid S k p z x) :
    q.children z = p.children z := by
  have hs := ho.start.sound
  have howner : ∀ x ∈ p.tree.childrenOf z, p.tree.ownerOf x = some z := by
    intro x hx
    rw [← children_eq hz] at hx
    rw [Tree.ownerOf_eq (node_eq (hk x hx).live), (hk x hx).owner]
  rw [children_eq (ho.moves.live hs hz), (ho.moves.childrenOf hs hz howner).1, children_eq hz]

theorem Onward.host (hc : Host S h c xs p p') : Host S h c xs q q' := by
  have hs := ho.start.sound
  have hlive := ho.moves.live hs hc.live
  refine ⟨ho.mirrored, hc.mem, hlive, ?_, ?_, hc.facing, ?_, ?_, fun x hx => ho.kid (hc.kids x hx)⟩
  · rw [ho.moves.unfold hs hc.live]
    exact hc.high
  · rw [ho.still c.id hc.mem hc.live hc.high, hc.direction]
  · rw [ho.moves.side hs hc.live]
    exact hc.starts
  · rw [ho.children hc.live (by rw [hc.children]; exact hc.kids), hc.children]

theorem Onward.headed_kid (hk : Kid S k p z x) (hh : Headed p p' x) : Headed q q' x :=
  ho.headed x hk.mem hk.live hh

theorem Onward.imaged_kid (hk : Kid S k p z x) (hi : Imaged p p' x) : Imaged q q' x :=
  ho.imaged x hk.mem hk.live hi

end

omit [Scalar α] in
theorem imaged_of_kids (hz : p.tree.Live z) (hk : ∀ x ∈ p.children z, Kid S h p z x)
    (hall : ∀ x ∈ p.children z, Headed p p' x ∧ Imaged p p' x) : Imaged p p' z := by
  refine imaged_of_children fun x hx => ?_
  rw [← children_eq hz] at hx
  have howner := (hk x hx).owner
  exact ⟨⟨(hall x hx).1 z howner, z, howner, rfl⟩, (hall x hx).2⟩

theorem Mirrored.own_kids (hm : Mirrored S p p') (hx : x ∈ S) (hl : p.tree.Live x)
    (hd : (p.tree.unfold (k + 1) x).isSome) :
    Onward S h p p' (p.ownChildren x) (p'.ownChildren x) ∧
      (p'.ownChildren x).children x = (p.ownChildren x).children x ∧
      ∀ y ∈ (p.ownChildren x).children x, Kid S k (p.ownChildren x) x y := by
  obtain ⟨ho, howner⟩ := hm.own (h := h) hx hl
  generalize p.ownChildren x = q at ho howner ⊢
  generalize p'.ownChildren x = q' at ho ⊢
  have hlive := ho.moves.live hm.sound hl
  refine ⟨ho, (ho.mirrored.node x hx hlive).children, fun y hy => ?_⟩
  rw [children_eq hlive] at hy
  have hly := ho.mirrored.sound.arena.accounted.live hy
  refine ⟨ho.mirrored.region.closed x hx y hy, hly, ?_, ?_⟩
  · rw [← ho.moves.unfold hm.sound hl] at hd
    exact (Tree.unfold_isSome.mp hd).2 y hy
  · rw [← Tree.ownerOf_eq (node_eq hly), howner y hy]

section

variable (hc : Host S h c xs p p')

include hc

theorem Host.node : (p.node c.id).Reflects (p'.node c.id) :=
  hc.mirrored.node c.id hc.mem hc.live

theorem Host.undirected : (p.node c.id).style.Undirected :=
  hc.mirrored.undirected c.id hc.mem hc.live

theorem Host.kid (hx : x ∈ xs) : (p.node x).Reflects (p'.node x) :=
  hc.mirrored.node x (hc.kids x hx).mem (hc.kids x hx).live

theorem Host.kid_undirected (hx : x ∈ xs) : (p.node x).style.Undirected :=
  hc.mirrored.undirected x (hc.kids x hx).mem (hc.kids x hx).live

end

theorem Mirrored.depth (hm : Mirrored S p p') : p'.depth = p.depth := by
  rw [Pass.depth, Pass.depth, hm.names.size, hm.limits]

section Kid

variable (hm : Mirrored S p p') (hx : x ∈ S) (hl : p.tree.Live x)

include hm hx hl

theorem Mirrored.put (side : Side) {a b : Node α → α}
    (hab : (p.node x).Leads (p'.node x) side → b (p'.node x) = a (p.node x)) :
    Onward S h p p'
      (p.update x fun n => { n with geometry := n.geometry.setPosition side (a n) })
      (p'.update x fun n => { n with geometry := n.geometry.setPosition side.mirror (b n) }) := by
  have hnode := hm.node x hx hl
  refine hm.update hx hl (fun _ => rfl) (fun _ => rfl)
    (hnode.setPosition side fun hside => hab (hnode.leads_column side hside)) (fun z _ hlead => ?_)
    (hm.memory x hx hl) (Or.inr rfl)
  exact hlead.setPosition side fun hs => hab (hs ▸ hlead)

theorem Mirrored.setMeasured (width height : α) :
    Onward S h p p' (p.setMeasured x width height) (p'.setMeasured x width height) :=
  hm.write hx hl

end Kid

theorem Mirrored.place (hm : Mirrored S p p') (hx : x ∈ S) (hl : p.tree.Live x)
    (d d' : Node α → Direction) (hltr : d (p.node x) = .ltr) (hrtl : d' (p'.node x) = .rtl)
    (main cross width : Extent α) :
    Onward S h p p' (p.redraw x fun n => n.placed (d n) main cross width)
        (p'.redraw x fun n => n.placed (d' n) main cross width) ∧
      Headed (p.redraw x fun n => n.placed (d n) main cross width)
        (p'.redraw x fun n => n.placed (d' n) main cross width) x := by
  have hnode := hm.node x hx hl
  have hleads : (p.node x).owner.isSome → ∀ s, Node.Leads
      { p.node x with geometry := (p.node x).placed (d (p.node x)) main cross width }
      { p'.node x with geometry := (p'.node x).placed (d' (p'.node x)) main cross width } s := by
    intro howner s
    rw [hltr, hrtl, hnode.placed howner]
    cases s <;> rfl
  have ho : Onward S h p p' (p.redraw x fun n => n.placed (d n) main cross width)
      (p'.redraw x fun n => n.placed (d' n) main cross width) := by
    refine hm.update hx hl (fun _ => rfl) (fun _ => rfl) ?_
      (fun _ hz _ => hleads (by rw [hz]; rfl) _) (hm.memory x hx hl) (Or.inr rfl)
    dsimp only
    rw [hltr, hrtl]
    exact hnode.placed_root main cross width
  refine ⟨ho, fun z hz => ?_⟩
  rw [ho.moves.owner hm.sound hl] at hz
  rw [redraw, redraw, node_update_self hl, node_update_self (hm.live' hl)]
  exact hleads (by rw [hz]; rfl) _

/-- Two walks over a list. What a step settles about the element it comes by stays settled. -/
theorem walk_onward {γ : Type} (P : γ → Pass α → Pass α → Prop) {f g : Pass α → γ → Pass α}
    {l : List γ} (hm : Mirrored S p p')
    (hpost : ∀ x ∈ l, ∀ {q q' u u'}, Onward S h p p' q q' → Onward S h q q' u u' →
      P x q q' → P x u u')
    (hstep : ∀ r r', ∀ x ∈ l, Onward S h p p' r r' →
      Onward S h r r' (f r x) (g r' x) ∧ P x (f r x) (g r' x)) :
    Onward S h p p' (l.foldl f p) (l.foldl g p') ∧
      ∀ x ∈ l, P x (l.foldl f p) (l.foldl g p') := by
  induction l generalizing p p' with
  | nil => exact ⟨.refl hm, by simp⟩
  | cons x l ih =>
    obtain ⟨ho, hx⟩ := hstep p p' x (by simp) (.refl hm)
    obtain ⟨ho', hrest⟩ := ih ho.mirrored
      (fun y hy _ _ _ _ hq => hpost y (by simp [hy]) (ho.trans hq))
      (fun r r' y hy hr => hstep r r' y (by simp [hy]) (ho.trans hr))
    refine ⟨ho.trans ho', fun y hy => ?_⟩
    rcases List.mem_cons.mp hy with rfl | hy
    · exact hpost _ (by simp) ho ho' hx
    · exact hrest y hy

end Pass

end Flexbox
