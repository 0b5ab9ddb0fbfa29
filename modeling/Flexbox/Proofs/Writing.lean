import Flexbox.Proofs.Lifecycle
import Flexbox.Proofs.Unfolding

namespace Flexbox

variable {α : Type}

namespace Tree

variable {t s u : Tree α} {p c k x : NodeId} {i : Nat}

/-- `s` is `t` with `k`, a copy of `c`, in the place of `c` on the list of `p`. -/
structure Reissued (t : Tree α) (p : NodeId) (i : Nat) (c k : NodeId) (s : Tree α) : Prop where
  listed : (t.childrenOf p)[i]? = some c
  kept : ∀ x n, t.find? x = some n → ∃ j, s.find? x = some { n with
    children := if x = p then n.children.set i k else n.children
    owner := if x = c then none else n.owner
    sharedCount := j }
  copy : ∃ n, t.find? c = some n ∧ s.find? k = some { n with owner := some p, sharedCount := 0 }
  fresh : ¬ t.Live k
  new : ∀ x, s.Live x → t.Live x ∨ x = k

section

variable (h : t.Reissued p i c k s)

include h

theorem Reissued.live (hx : t.Live x) : s.Live x := by
  obtain ⟨n, hn⟩ := hx
  obtain ⟨j, hj⟩ := h.kept x n hn
  exact ⟨_, hj⟩

theorem Reissued.childrenOf_other (hx : t.Live x) (hxp : x ≠ p) :
    s.childrenOf x = t.childrenOf x := by
  obtain ⟨n, hn⟩ := hx
  obtain ⟨j, hj⟩ := h.kept x n hn
  rw [childrenOf_eq hn, childrenOf_eq hj, if_neg hxp]

end

theorem forall₂_set {R : NodeId → NodeId → Prop} {cs : List NodeId} (hR : ∀ x ∈ cs, R x x)
    (hi : cs[i]? = some c) (hk : R c k) : List.Forall₂ R cs (cs.set i k) := by
  induction cs generalizing i with
  | nil => simp at hi
  | cons d cs ih =>
    have hcs : ∀ x ∈ cs, R x x := fun x hx => hR x (by simp [hx])
    cases i with
    | zero =>
      obtain rfl : d = c := by simpa using hi
      exact .cons hk (List.forall₂_same.mpr hcs)
    | succ i => exact .cons (hR d (by simp)) (ih hcs (by simpa using hi))

theorem Reissued.unfold (h : t.Reissued p i c k s) (ht : t.Arena) (hx : t.Live x) (depth : Nat) :
    s.unfold depth x = t.unfold depth x := by
  let R : NodeId → NodeId → Prop := fun a b => (a = b ∧ t.Live a) ∨ (a = c ∧ b = k)
  have hself : ∀ {n : Node α} {y}, t.find? y = some n → ∀ d ∈ n.children, R d d :=
    fun hn d hd => Or.inl ⟨rfl, ht.live hn hd⟩
  refine Bisim.unfold (R := R) ?_ (Or.inl ⟨rfl, hx⟩) depth
  rintro a b (⟨rfl, n, hn⟩ | ⟨rfl, rfl⟩)
  · obtain ⟨j, hj⟩ := h.kept a n hn
    refine ⟨n, _, hn, hj, rfl, ?_⟩
    by_cases hap : a = p
    · have hlisted := h.listed
      rw [← hap, childrenOf_eq hn] at hlisted
      simpa [hap] using forall₂_set (hself hn) hlisted (Or.inr ⟨rfl, rfl⟩)
    · simpa [hap] using List.forall₂_same.mpr (hself hn)
  · obtain ⟨n, hn, hk⟩ := h.copy
    exact ⟨n, _, hn, hk, rfl, List.forall₂_same.mpr (hself hn)⟩

theorem Sound.reissued (h : t.Sound) {n d : Node α} (hn : t.find? p = some n)
    (hc : n.children[i]? = some c) (hd : t.find? c = some d) (ho : d.owner = some p) :
    t.Reissued p i c (t.copyName p d) (((t.withCopy p d).update p fun n =>
      { n with children := n.children.set i (t.copyName p d) }).unlist p c) := by
  have hlive : ∀ x ∈ d.children, t.Live x := fun x hx => h.arena.live hd hx
  have hfresh := copyName_fresh h.arena.tidy p d
  have hne : ∀ {x m}, t.find? x = some m → x ≠ t.copyName p d := fun hm he => hfresh (he ▸ ⟨_, hm⟩)
  have hfind := fun x => find?_withCopy (p := p) h.arena.tidy hlive x
  refine ⟨by rwa [childrenOf_eq hn], ?_, ⟨d, hd, ?_⟩, hfresh, ?_⟩
  · intro x m hm
    rw [find?_unlist, find?_update, hfind, if_neg (hne hm), hm]
    by_cases hxc : x = c
    · subst hxc
      obtain rfl : d = m := Option.some.inj (hd.symm.trans hm)
      by_cases hxp : x = p <;> simp [hxp, Node.isOwnedBy, ho]
    · by_cases hxp : x = p
      · subst hxp
        simp [hxc]
      · simp [hxp, hxc]
  · rw [find?_unlist, if_neg (hne hd).symm, find?_update_other _ _ (hne hn).symm, hfind, if_pos rfl]
  · intro x hx
    obtain ⟨m, hm⟩ := live_update.mp (live_update.mp hx)
    rw [hfind] at hm
    split at hm
    · rename_i hxk
      exact Or.inr hxk
    · obtain ⟨m', hm', -⟩ := Option.map_eq_some_iff.mp hm
      exact Or.inl ⟨m', hm'⟩

/-- `s` is `t` after `p` was given its child number `i` for writing, by the name `c`. -/
structure Opened (t : Tree α) (p : NodeId) (i : Nat) (c : NodeId) (s : Tree α) : Prop where
  sound : s.Sound
  listed : (s.childrenOf p)[i]? = some c
  owned : s.ownerOf c = some p
  unshared : ∃ n, s.find? c = some n ∧ n.isShared = false
  /-- First the list was made private, then perhaps one child on it was copied. -/
  way : ∃ u, u.Sound ∧ t.Privatized p u ∧ (u = s ∨ ∃ d, u.Reissued p i d c s)

section

variable (h : t.Opened p i c s)

include h

theorem Opened.live (hx : t.Live x) : s.Live x := by
  obtain ⟨u, -, hp, rfl | ⟨d, hr⟩⟩ := h.way
  · exact hp.live hx
  · exact hr.live (hp.live hx)

theorem Opened.childrenOf_other (hx : t.Live x) (hxp : x ≠ p) :
    s.childrenOf x = t.childrenOf x := by
  obtain ⟨u, -, hp, rfl | ⟨d, hr⟩⟩ := h.way
  · exact hp.childrenOf_other hx hxp
  · rw [hr.childrenOf_other (hp.live hx) hxp, hp.childrenOf_other hx hxp]

theorem Opened.unfold (ht : t.Arena) (hx : t.Live x) (depth : Nat) :
    s.unfold depth x = t.unfold depth x := by
  obtain ⟨u, hu, hp, rfl | ⟨d, hr⟩⟩ := h.way
  · exact hp.unfold ht hx depth
  · rw [hr.unfold hu.arena (hp.live hx), hp.unfold ht hx]

theorem Opened.lister {q : NodeId} (hq : c ∈ s.childrenOf q) : q = p := by
  obtain ⟨n, hn, hs⟩ := h.unshared
  have ho := h.sound.arena.owner_of_unshared hn (by simpa [Node.isShared] using hs) hq
  rw [← ownerOf_eq hn, h.owned] at ho
  exact (Option.some.inj ho).symm

end

end Tree

namespace Edit

variable [Scalar α] {t : Tree α} {p : NodeId} {i : Nat}

theorem childForWrite_run (h : t.Sound) {n : Node α} (hn : t.find? p = some n)
    (hi : i < n.children.length) :
    ∃ c s, (childForWrite p i).apply t = (.ok c, s) ∧ t.Opened p i c s := by
  obtain ⟨u, hrun, hu, hpriv⟩ := ownChildren_run h ⟨n, hn⟩
  obtain ⟨ks, j, hk, hcopies⟩ := hpriv.self n hn
  obtain ⟨c, hc⟩ : ∃ c, ks[i]? = some c := by
    rw [hcopies.length_eq] at hi
    exact ⟨ks[i], List.getElem?_eq_getElem hi⟩
  have hmem : c ∈ u.childrenOf p := by
    rw [Tree.childrenOf_eq hk]
    exact List.mem_of_getElem? hc
  obtain ⟨d, hd, ho⟩ := Tree.owns_eq_true.mp (hpriv.owned c hmem)
  have hle : ¬ n.children.length ≤ i := by omega
  cases hs : d.isShared with
  | false =>
    refine ⟨c, u, ?_, hu, by rwa [Tree.childrenOf_eq hk], ?_, ⟨d, hd, hs⟩, u, hu, hpriv, Or.inl rfl⟩
    · simp [childForWrite, apply_bind, apply_node hn, hle, hrun, apply_node hk, hc, apply_node hd,
        hs]
    · rw [Tree.ownerOf_eq hd, ho]
  | true =>
    have hall : ∀ c ∈ ks, u.owns p c := fun c hc => hpriv.owned c (by rwa [Tree.childrenOf_eq hk])
    have hre := hu.reissued hk hc hd ho
    obtain ⟨l, hl⟩ := Tree.recounts_withCopy (p := p) hu.arena.tidy
      (fun x hx => hu.arena.live hd hx) p _ hk
    obtain ⟨m, hm, hcopy⟩ := hre.copy
    refine ⟨u.copyName p d, _, ?_, copy_child_sound hu hk hc hd hall, ?_, ?_, ⟨_, hcopy, rfl⟩,
      u, hu, hpriv, Or.inr ⟨c, hre⟩⟩
    · have hhook := hu.hookless.2 hk
      simp only at hhook
      simp [childForWrite, apply_bind, apply_node hn, hle, hrun, apply_node hk, hc, apply_node hd,
        hs, hhook, apply_copyFor i hd, apply_change hl, Except.map]
    · obtain ⟨j, hj⟩ := hre.kept p _ hk
      rw [Tree.childrenOf_eq hj, if_pos rfl]
      exact List.getElem?_set_self (List.getElem?_eq_some_iff.mp hc).1
    · rw [Tree.ownerOf_eq hcopy]

theorem childForWrite_beyond (hi : ¬ i < (t.childrenOf p).length) :
    ∃ e, (childForWrite p i).apply t = (.error e, t) := by
  cases hn : t.find? p with
  | none => exact ⟨_, by simp [childForWrite, apply_bind, apply_node_none hn]; rfl⟩
  | some n =>
    rw [Tree.childrenOf_eq hn] at hi
    exact ⟨_, by simp [childForWrite, apply_bind, apply_node hn, Nat.not_lt.mp hi]; rfl⟩

theorem childForWrite_cases (h : t.Sound) (p : NodeId) (i : Nat) :
    (∃ e, (childForWrite p i).apply t = (.error e, t)) ∨
      ∃ c s, (childForWrite p i).apply t = (.ok c, s) ∧ t.Opened p i c s := by
  by_cases hi : i < (t.childrenOf p).length
  · obtain ⟨n, hn, -⟩ := Tree.mem_childrenOf.mp (List.getElem_mem hi)
    exact Or.inr (childForWrite_run h hn (by rwa [Tree.childrenOf_eq hn] at hi))
  · exact Or.inl (childForWrite_beyond hi)

theorem updateChildStyle_ends (h : t.Sound) (p : NodeId) (i : Nat) (f : Style α → Style α) :
    (updateChildStyle p i f).Ends t Tree.Sound := by
  rcases childForWrite_cases h p i with ⟨e, hrun⟩ | ⟨c, s, hrun, ho⟩
  · exact Or.inl ⟨e, by rw [updateChildStyle, apply_bind, hrun]⟩
  · obtain ⟨d, hd, hs⟩ := ho.unshared
    have hend := (updateStyle_mends ho.sound c f).ends.sound ho.sound
    rw [apply_updateStyle hd hs f] at hend
    exact (runs_bind hrun (runs_bind (apply_updateStyle hd hs f) ⟨_, _, rfl, hend⟩)).ends

end Edit

end Flexbox
