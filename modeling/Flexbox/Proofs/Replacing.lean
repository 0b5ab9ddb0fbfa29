import Flexbox.Proofs.Edits

namespace Flexbox

variable {α : Type} [Scalar α]

namespace Tree

variable {t s : Tree α} {p c : NodeId} {i : Nat} {E : Set NodeId} {n : Node α}

/-- The tree with `new` in the place of `c`, child number `i` of `p`. -/
def exchanged (t : Tree α) (p : NodeId) (i : Nat) (c new : NodeId) : Tree α :=
  (((t.update p fun n => { n with children := n.children.set i new }).update c fun n =>
    if n.isOwnedBy p then { n with geometry := .initial } else n).unlist p c).update new fun n =>
      { n with owner := some p }

theorem Upward.exchanged (hu : t.Upward E) (hp : p ∈ E) (i : Nat) (c new : NodeId) :
    (t.exchanged p i c new).Upward E := by
  have hset : (t.update p fun n => { n with children := n.children.set i new }).Upward E :=
    hu.update p (by intros; rfl) fun _ _ _ ho => Or.inl ho
  have hforget := hset.update c
    (f := fun n => if n.isOwnedBy p then { n with geometry := .initial } else n)
    (fun n _ => by split <;> rfl) fun n q _ ho => by split at ho <;> exact Or.inl ho
  exact (hforget.unlist p c).update new (by intros; rfl) fun _ _ _ ho =>
    Or.inr (Option.some.inj ho ▸ hp)

theorem Balanced.exchanged (h : t.Balanced) {new : NodeId} (hn : t.find? p = some n)
    (hc : n.children[i]? = some c) (hall : ∀ d ∈ n.children, t.owns p d) (hl : t.Live new)
    (ho : t.ownerOf new = none) : (t.exchanged p i c new).Balanced := by
  have hpend : t.Balancing p n.children := childrenOf_eq hn ▸ h.balancing p
  have hmem : c ∈ n.children := List.mem_of_getElem? hc
  have hnodup := h.nodup hn
  have hnew : new ∉ n.children := by
    intro hm
    have hown := hall new hm
    simp [owns, ho] at hown
  have hnc : new ≠ c := fun he => hnew (he ▸ hmem)
  have hperm : (n.children.set i new).Perm (new :: n.children.erase c) := by
    have hset := Edit.set_perm_erase hc hnew
    rwa [List.erase_cons_tail (by simpa using hnc)] at hset
  have hlive : ∀ d ∈ n.children.set i new, t.Live d := by
    intro d hd
    rcases List.mem_cons.mp (hperm.mem_iff.mp hd) with rfl | hd
    · exact hl
    · exact h.live hn (List.mem_of_mem_erase hd)
  have hf : ∀ m, t.find? p = some m → ({ m with children := m.children.set i new } : Node α) =
      { m with children := n.children.set i new } := by
    intro m hm
    obtain rfl : n = m := Option.some.inj (hn.symm.trans hm)
    rfl
  have hwrite := hpend.write _ hf hlive
    (hperm.nodup_iff.mpr (List.nodup_cons.mpr
      ⟨fun hm => hnew (List.mem_of_mem_erase hm), hnodup.erase c⟩))
  have hlist := childrenOf_write _ ⟨n, hn⟩ hf
  have howner : (t.update p fun n => { n with children := n.children.set i new }).ownerOf =
      t.ownerOf := ownerOf_update (by intros; rfl)
  have hul : ∀ {x}, t.Live x →
      (t.update p fun n => { n with children := n.children.set i new }).Live x := live_update.mpr
  rw [Tree.exchanged]
  generalize t.update p _ = u at hwrite hlist howner hul ⊢
  obtain ⟨hgone, hgc, hgo⟩ := Edit.letGo_balancing
    (f := fun n => if n.isOwnedBy p then { n with geometry := .initial } else n)
    (hwrite.perm (List.perm_cons_erase hmem).symm) (fun n => by split <;> rfl)
    (fun n => by split <;> rfl) fun n => by split <;> rfl
  have hgl : ∀ {x}, t.Live x → ((u.update c fun n =>
      if n.isOwnedBy p then { n with geometry := .initial } else n).unlist p c).Live x :=
    fun hx => live_update.mpr (live_update.mpr (hul hx))
  generalize (u.update c fun n =>
    if n.isOwnedBy p then { n with geometry := .initial } else n).unlist p c = v
    at hgone hgc hgo hgl ⊢
  have hvo : v.ownerOf new = none := by
    rw [hgo, howner, ho]
    simp
  have hadopt := hgone.adopt
    (hgl ⟨n, hn⟩) (hgl hl) hvo (fun hm => hnew (List.mem_of_mem_erase hm)) fun _ => rfl
  have hch : (v.update new fun n => { n with owner := some p }).childrenOf p =
      n.children.set i new := by
    rw [childrenOf_update (by intros; rfl), hgc, hlist]
  refine hadopt.close (by rw [hch]; exact hperm) (Or.inl fun x hx => ?_)
  rw [hch] at hx
  simp only [owns, ownerOf_adopt (hgl hl) (fun _ => rfl), beq_iff_eq]
  split
  · rfl
  · rename_i hxn
    have hxe := (List.mem_cons.mp (hperm.mem_iff.mp hx)).resolve_left hxn
    obtain ⟨hxc, hxm⟩ := hnodup.mem_erase_iff.mp hxe
    rw [hgo, if_neg fun hand => hxc hand.1, howner]
    simpa [owns] using hall x hxm

theorem exchanged_self (hn : t.find? p = some n) (hc : n.children[i]? = some c)
    (ho : t.ownerOf c = some p) :
    t.exchanged p i c c = t.update c fun n => { n with geometry := .initial } := by
  have hset : (t.update p fun n => { n with children := n.children.set i c }) = t := by
    refine update_same fun m hm => ?_
    obtain rfl : n = m := Option.some.inj (hn.symm.trans hm)
    obtain ⟨hlt, he⟩ := List.getElem?_eq_some_iff.mp hc
    rw [← he, List.set_getElem_self]
  rw [Tree.exchanged, hset, unlist, update_update, update_update]
  refine update_congr fun m hm => ?_
  rw [ownerOf_eq hm] at ho
  simp [Node.isOwnedBy, ho]

theorem exchanged_furnishing (t : Tree α) (p : NodeId) (i : Nat) (c new x : NodeId) :
    ((t.exchanged p i c new).find? x).map Node.furnishing = (t.find? x).map Node.furnishing := by
  rw [Tree.exchanged, map_find?_update (by intros; rfl), unlist,
    map_find?_update (by intro n _; split <;> rfl), map_find?_update (by intro n _; split <;> rfl),
    map_find?_update fun n _ => ?_]
  unfold Node.furnishing
  cases n.children <;> cases i <;> rfl

end Tree

namespace Edit

open Tree

variable {t : Tree α} {p old new : NodeId} {E : Set NodeId} {n d : Node α}
  {i : Nat}

theorem replaceChild_cases (t : Tree α) (p old new : NodeId) :
    (∃ e, (replaceChild p old new).apply t = (.error e, t)) ∨
      ∃ n i d, t.find? p = some n ∧ n.children.idxOf? old = some i ∧ t.find? new = some d ∧
        (d.owner = none ∨ d.owner = some p) := by
  cases hn : t.find? p with
  | none => exact Or.inl ⟨_, by simp [replaceChild, apply_bind, apply_node_none hn]; rfl⟩
  | some n =>
    cases hi : n.children.idxOf? old with
    | none => exact Or.inl ⟨_, by simp [replaceChild, apply_bind, apply_node hn, hi]; rfl⟩
    | some i =>
      cases hd : t.find? new with
      | none =>
        exact Or.inl ⟨_, by
          simp [replaceChild, apply_bind, apply_node hn, hi, apply_node_none hd]; rfl⟩
      | some d =>
        cases ho : d.owner with
        | none => exact Or.inr ⟨n, i, d, rfl, hi, rfl, Or.inl ho⟩
        | some q =>
          by_cases hq : q = p
          · exact Or.inr ⟨n, i, d, rfl, hi, rfl, Or.inr (by rw [ho, hq])⟩
          · exact Or.inl ⟨_, by
              simp [replaceChild, apply_bind, apply_node hn, hi, apply_node hd, ho, hq]; rfl⟩

theorem final_replaceChild {P : Tree α → Prop} (h : P t)
    (hrun : ∀ n i d, t.find? p = some n → n.children.idxOf? old = some i → t.find? new = some d →
      d.owner = none ∨ d.owner = some p → P ((replaceChild p old new).apply t).2) :
    P ((replaceChild p old new).apply t).2 := by
  rcases replaceChild_cases t p old new with ⟨e, he⟩ | ⟨n, i, d, hn, hi, hd, ho⟩
  · rw [he]
    exact h
  · exact hrun n i d hn hi hd ho

theorem replaceChild_exchanges {s : Tree α} {c : NodeId} (hn : t.find? p = some n)
    (hi : n.children.idxOf? old = some i) (hd : t.find? new = some d)
    (ho : d.owner = none ∨ d.owner = some p) (hrun : (ownChildren p).apply t = (.ok ⟨⟩, s))
    (hs : ∀ {x}, t.Live x → s.Live x) (hc : (s.childrenOf p)[i]? = some c) :
    (replaceChild p old new).apply t = (.ok ⟨⟩, (s.exchanged p i c new).soilUpwards p) := by
  have hlive : ∀ {x}, t.Live x → (((s.update p fun n =>
      { n with children := n.children.set i new }).update c fun n =>
        if n.isOwnedBy p then { n with geometry := .initial } else n).unlist p c).Live x :=
    fun hx => live_update.mpr (live_update.mpr (live_update.mpr (hs hx)))
  obtain ⟨k, hk⟩ := hs ⟨n, hn⟩
  rw [childrenOf_eq hk] at hc
  obtain ⟨m, hm⟩ := hlive ⟨d, hd⟩
  have hp : (s.exchanged p i c new).Live p := live_update.mpr (hlive ⟨n, hn⟩)
  have hadopt : (change new fun n => { n with owner := some p }).apply (((s.update p fun n =>
      { n with children := n.children.set i new }).update c fun n =>
        if n.isOwnedBy p then { n with geometry := .initial } else n).unlist p c) =
      (.ok ⟨⟩, s.exchanged p i c new) := apply_change hm _
  rcases ho with ho | ho <;>
    simp [replaceChild, apply_bind, apply_node hn, hi, apply_node hd, ho, hrun, apply_node hk, hc,
      apply_change hk, forgetOwned, hadopt, apply_propagateDirty hp]

theorem replaceChild_made (h : t.Balanced) (hn : t.find? p = some n)
    (hi : n.children.idxOf? old = some i) (hd : t.find? new = some d)
    (ho : d.owner = none ∨ d.owner = some p) :
    ∃ s c, (ownChildren p).apply t = (.ok ⟨⟩, s) ∧ s.Balanced ∧
      t.Staffed n.config.onCopy.isSome p s ∧ (s.childrenOf p)[i]? = some c ∧
      (replaceChild p old new).apply t = (.ok ⟨⟩, (s.exchanged p i c new).soilUpwards p) := by
  obtain ⟨s, hrun, hs, hstaff⟩ := ownChildren_staffed h hn
  obtain ⟨ks, j, hk, hstand⟩ := hstaff.self n hn
  obtain ⟨c, hc⟩ : ∃ c, (s.childrenOf p)[i]? = some c := by
    have hlt : i < ks.length := by
      rw [← hstand.length_eq]
      exact (List.idxOf?_eq_some_iff.mp hi).1
    exact ⟨ks[i], by rw [childrenOf_eq hk]; exact List.getElem?_eq_getElem hlt⟩
  exact ⟨s, c, hrun, hs, hstaff, hc, replaceChild_exchanges hn hi hd ho hrun hstaff.live hc⟩

theorem replaceChild_run (h : t.Sound) (hn : t.find? p = some n)
    (hi : n.children.idxOf? old = some i) (hd : t.find? new = some d)
    (ho : d.owner = none ∨ d.owner = some p) :
    ∃ s c, (ownChildren p).apply t = (.ok ⟨⟩, s) ∧ s.Sound ∧ t.Privatized p s ∧
      (s.childrenOf p)[i]? = some c ∧
      (replaceChild p old new).apply t = (.ok ⟨⟩, (s.exchanged p i c new).soilUpwards p) := by
  obtain ⟨s, hown, hs, hpriv⟩ := ownChildren_run h ⟨n, hn⟩
  obtain ⟨s', c, hown', -, -, hc, hrun⟩ := replaceChild_made h.arena.toBalanced hn hi hd ho
  obtain rfl : s = s' := (Prod.mk.inj (hown.symm.trans hown')).2
  exact ⟨s, c, hown, hs, hpriv, hc, hrun⟩

theorem replaceChild_upward (h : t.Sound) (hu : t.Upward E) (p old new : NodeId) :
    ((replaceChild p old new).apply t).2.Upward E := by
  refine final_replaceChild hu fun n i d hn hi hd ho => ?_
  obtain ⟨s, c, -, -, hpriv, -, hrun⟩ := replaceChild_run h hn hi hd ho
  rw [hrun]
  dsimp only
  have hus : s.Upward ({p} ∪ E) := hpriv.upward h.arena (hu.mono fun _ hq => Or.inr hq) (Or.inl rfl)
  exact (hus.exchanged (Or.inl rfl) i c new).soilUpwards

theorem replaceChild_owned (h : t.Balanced) (hn : t.find? p = some n)
    (hi : n.children.idxOf? old = some i) (ho : t.ownerOf new = some p) :
    (replaceChild p old new).apply t =
      (.ok ⟨⟩, (t.exchanged p i old new).soilUpwards p) := by
  obtain ⟨d, hd, hdo⟩ := Option.bind_eq_some_iff.mp ho
  obtain ⟨s, c, hown, -, -, hc, hrun⟩ := replaceChild_made h hn hi hd (Or.inr hdo)
  have hall := (h.whole p).owned (h.mem_of_ownerOf ho) (by simp [owns, ho])
  rw [ownChildren_owned h ⟨n, hn⟩ hall] at hown
  obtain rfl : t = s := (Prod.mk.inj hown).2
  obtain ⟨hlt, he, -⟩ := List.idxOf?_eq_some_iff.mp hi
  rw [childrenOf_eq hn, List.getElem?_eq_getElem hlt] at hc
  obtain rfl : old = c := by simpa [he] using hc
  exact hrun

theorem replaceChild_balanced (h : t.Balanced) (hnew : t.ownerOf new = some p → new = old) :
    ((replaceChild p old new).apply t).2.Balanced := by
  refine final_replaceChild h fun n i d hn hi hd ho => ?_
  rcases ho with ho | ho
  · obtain ⟨s, c, -, hs, hstaff, hc, hrun⟩ := replaceChild_made h hn hi hd (Or.inl ho)
    rw [hrun]
    dsimp only
    obtain ⟨m, hm⟩ := hstaff.live ⟨n, hn⟩
    rw [childrenOf_eq hm] at hc
    refine (hs.exchanged hm hc (fun d hd => hstaff.owned d (by rwa [childrenOf_eq hm]))
      (hstaff.live ⟨d, hd⟩) ?_).soilUpwards p
    rw [hstaff.ownerOf ⟨d, hd⟩, ownerOf_eq hd, ho]
  · -- The owner lists the child already, in the very place that it is to take.
    have hnp : t.ownerOf new = some p := by rw [ownerOf_eq hd, ho]
    rw [replaceChild_owned h hn hi hnp]
    obtain rfl := hnew hnp
    obtain ⟨hlt, he, -⟩ := List.idxOf?_eq_some_iff.mp hi
    rw [exchanged_self hn (List.getElem?_eq_some_iff.mpr ⟨hlt, by simpa using he⟩) hnp]
    dsimp only
    exact (h.update new (by intros; rfl) (by intros; rfl) (by intros; rfl)).soilUpwards p

theorem replaceChild_sound (h : t.Sound) (hnew : t.ownerOf new = some p → new = old) :
    ((replaceChild p old new).apply t).2.Sound := by
  refine final_replaceChild h fun n i d hn hi hd ho => ?_
  obtain ⟨s, c, -, hs, -, -, hrun⟩ := replaceChild_run h hn hi hd ho
  have hb : ((replaceChild p old new).apply t).2.Balanced :=
    replaceChild_balanced h.arena.toBalanced hnew
  rw [hrun] at hb ⊢
  dsimp only at hb ⊢
  refine hs.furnished hb (fun x => ?_) ?_
  · rw [map_find?_soilUpwards (by intro; rfl), exchanged_furnishing]
  · rw [soilUpwards_config]
    rfl

end Edit

end Flexbox
