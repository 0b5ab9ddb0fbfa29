import Flexbox.Proofs.Restyling

namespace Flexbox

variable {α : Type}

namespace Tree

variable {t s u : Tree α} {p c d k x : NodeId} {i : Nat} {n : Node α}
  {R : NodeId → NodeId → Prop}

def CleanOverDirty (t : Tree α) (p : NodeId) : Prop := t.Clean p ∧ ∃ c ∈ t.childrenOf p, t.Dirty c

theorem CleanOverDirty.not_owned (h : t.CleanOverDirty p) (hu : t.Upward ∅) :
    ∃ c ∈ t.childrenOf p, t.owns p c = false := by
  obtain ⟨hclean, c, hc, hdirty⟩ := h
  refine ⟨c, hc, ?_⟩
  by_contra ho
  exact hu c p (by simpa [owns] using ho) hdirty hclean

theorem not_cleanOverDirty_of_dead (hp : ¬ t.Live p) : ¬ t.CleanOverDirty p := by
  rintro ⟨hclean, -⟩
  simp [Clean, markOf, not_live.mp hp] at hclean

theorem exists_of_forall₂_left {cs ks : List NodeId} (h : List.Forall₂ R cs ks) (hc : c ∈ cs) :
    ∃ k ∈ ks, R c k :=
  exists_of_forall₂ h.flip hc

theorem Privatized.upward_iff (h : t.Privatized p s) (ht : t.Arena) (hp : t.Live p)
    (hu : t.Upward ∅) : s.Upward ∅ ↔ ¬ t.CleanOverDirty p := by
  obtain ⟨n, hn⟩ := hp
  obtain ⟨ks, j, hk, hcopies⟩ := h.self n hn
  constructor
  · rintro hs ⟨hclean, c, hc, hdirty⟩
    rw [childrenOf_eq hn] at hc
    obtain ⟨k, -, m, l, hm, hkf⟩ := exists_of_forall₂_left hcopies hc
    rw [dirty_iff hm] at hdirty
    refine hs k p (ownerOf_eq hkf) ((dirty_iff hkf).mpr hdirty) ?_
    rwa [Clean, h.markOf ⟨n, hn⟩]
  · intro hno c q ho hdirty hclean
    obtain rfl : q = p := h.upward ht (hu.mono (Set.empty_subset {p})) rfl c q ho hdirty hclean
    by_cases hl : t.Live c
    · rw [h.ownerOf hl] at ho
      rw [Dirty, h.markOf hl] at hdirty
      rw [Clean, h.markOf (ht.owner_live ho)] at hclean
      exact hu c q ho hdirty hclean
    · obtain ⟨m, hm, -⟩ := Option.bind_eq_some_iff.mp ho
      have hmem := (h.new c ⟨m, hm⟩).resolve_left hl
      rw [childrenOf_eq hk] at hmem
      obtain ⟨d, hd, e, i, he, hc⟩ := exists_of_forall₂ hcopies hmem
      refine absurd ⟨?_, d, ?_, ?_⟩ hno
      · rwa [Clean, ← h.markOf ⟨n, hn⟩]
      · rwa [childrenOf_eq hn]
      · rw [dirty_iff hc] at hdirty
        exact (dirty_iff he).mpr hdirty

section

variable (h : t.Reissued p i c k s)

include h

theorem Reissued.markOf (hx : t.Live x) : s.markOf x = t.markOf x := by
  obtain ⟨n, hn⟩ := hx
  obtain ⟨j, hj⟩ := h.kept x n hn
  rw [markOf_eq hn, markOf_eq hj]

theorem Reissued.ownerOf (hx : t.Live x) : s.ownerOf x = if x = c then none else t.ownerOf x := by
  obtain ⟨n, hn⟩ := hx
  obtain ⟨j, hj⟩ := h.kept x n hn
  rw [ownerOf_eq hj, ownerOf_eq hn]

theorem Reissued.upward_iff (ht : t.Arena) (ho : t.ownerOf c = some p) :
    s.Upward ∅ ↔ t.Upward ∅ := by
  have hp := ht.owner_live ho
  obtain ⟨m, hm, hk⟩ := h.copy
  have hmark : s.markOf k = t.markOf c := by rw [markOf_eq hk, markOf_eq hm]
  constructor
  · intro hs x q hq hdirty hclean
    rw [Clean, ← h.markOf (ht.owner_live hq)] at hclean
    by_cases hxc : x = c
    · obtain rfl : p = q := Option.some.inj (ho.symm.trans (hxc ▸ hq))
      refine hs k p (ownerOf_eq hk) ?_ hclean
      rwa [Dirty, hmark, ← hxc]
    · obtain ⟨n, hn, -⟩ := Option.bind_eq_some_iff.mp hq
      refine hs x q ?_ ?_ hclean
      · rw [h.ownerOf ⟨n, hn⟩, if_neg hxc, hq]
      · rwa [Dirty, h.markOf ⟨n, hn⟩]
  · intro hu
    refine hu.grow (fun _ _ ho => ht.owner_live ho) (fun x hx => ⟨h.markOf hx, fun q hq => ?_⟩) ?_
    · rw [h.ownerOf hx] at hq
      split at hq
      · cases hq
      · exact Or.inl hq
    · intro x q hx hq hdirty hclean
      obtain ⟨n, hn, -⟩ := Option.bind_eq_some_iff.mp hq
      obtain rfl := (h.new x ⟨n, hn⟩).resolve_left hx
      obtain rfl : p = q := Option.some.inj ((ownerOf_eq hk).symm.trans hq)
      rw [Dirty, hmark] at hdirty
      rw [Clean, h.markOf hp] at hclean
      exact hu c p ho hdirty hclean

end

section

variable (h : t.Opened p i d s)

include h

theorem Opened.upward (ht : t.Arena) {E : Set NodeId} (hu : t.Upward E) (hp : p ∈ E) :
    s.Upward E := by
  obtain ⟨u, hus, hpriv, rfl | ⟨e, hre⟩⟩ := h.way
  · exact hpriv.upward ht hu hp
  · refine (hpriv.upward ht hu hp).grow (fun _ _ ho => hus.arena.owner_live ho)
      (fun x hx => ⟨hre.markOf hx, fun q hq => ?_⟩) fun x q hx hq _ _ => ?_
    · rw [hre.ownerOf hx] at hq
      split at hq
      · cases hq
      · exact Or.inl hq
    · obtain ⟨n, hn, -⟩ := Option.bind_eq_some_iff.mp hq
      obtain rfl := (hre.new x ⟨n, hn⟩).resolve_left hx
      rwa [← Option.some.inj (h.owned.symm.trans hq)]

theorem Opened.child (hc : (t.childrenOf p)[i]? = some c) (hn : t.find? c = some n) :
    ∃ j, s.find? d = some { n with owner := some p, sharedCount := j } := by
  obtain ⟨l, hl, -⟩ := mem_childrenOf.mp (List.mem_of_getElem? hc)
  rw [childrenOf_eq hl] at hc
  obtain ⟨u, hu, hpriv, hway⟩ := h.way
  obtain ⟨ks, j, hk, hcopies⟩ := hpriv.self l hl
  have hcopied : ∀ {e}, ks[i]? = some e → ∃ j, u.find? e = some { n with
      owner := some p, sharedCount := j } := by
    intro e he
    obtain ⟨hlt, hci⟩ := List.getElem?_eq_some_iff.mp hc
    obtain ⟨hlt', hei⟩ := List.getElem?_eq_some_iff.mp he
    obtain ⟨m, j, hm, hef⟩ := hcopies.get hlt hlt'
    rw [List.get_eq_getElem, hci, hn] at hm
    rw [List.get_eq_getElem, hei] at hef
    obtain rfl := Option.some.inj hm
    exact ⟨j, hef⟩
  have hlisted := h.listed
  rcases hway with rfl | ⟨e, hre⟩
  · rw [childrenOf_eq hk] at hlisted
    exact hcopied hlisted
  · have he := hre.listed
    rw [childrenOf_eq hk] at he
    obtain ⟨j, hj⟩ := hcopied he
    obtain ⟨m, hm, hd⟩ := hre.copy
    obtain rfl := Option.some.inj (hj.symm.trans hm)
    exact ⟨0, hd⟩

theorem Opened.upward_iff (ht : t.Arena) (hp : t.Live p) (hu : t.Upward ∅) :
    s.Upward ∅ ↔ ¬ t.CleanOverDirty p := by
  obtain ⟨u, hus, hpriv, rfl | ⟨e, hre⟩⟩ := h.way
  · exact hpriv.upward_iff ht hp hu
  · have hown := hpriv.owned e (List.mem_of_getElem? hre.listed)
    rw [hre.upward_iff hus.arena (by simpa [owns] using hown)]
    exact hpriv.upward_iff ht hp hu

theorem Opened.soiled_upward_iff (ht : t.Arena) (hp : t.Live p) (hu : t.Upward ∅)
    (hn : s.find? d = some n) (style : Style α) :
    ((s.update d fun m => { m with style := style }).soilUpwards d).Upward ∅ ↔
      (t.CleanOverDirty p → n.isDirty = false) := by
  have hd : (s.update d fun m => { m with style := style }).find? d =
      some { n with style := style } := by
    rw [find?_update_self, hn]
    rfl
  have hmark : (s.update d fun m => { m with style := style }).markOf = s.markOf :=
    markOf_update (by intros; rfl)
  have howner : (s.update d fun m => { m with style := style }).ownerOf = s.ownerOf :=
    ownerOf_update (by intros; rfl)
  cases hdirty : n.isDirty with
  | true =>
    rw [soilUpwards_dirty hd hdirty, upward_congr hmark howner, h.upward_iff ht hp hu]
    simp
  | false =>
    refine iff_of_true (Upward.soilUpwards_owner (p := p) ?_ hd hdirty ?_) fun _ => rfl
    · exact (h.upward ht (hu.mono (Set.empty_subset _)) (by simp)).congr hmark howner
    · rw [← ownerOf_eq hd, howner, h.owned]

end

theorem Cloned.upward_iff {id : NodeId} (h : t.Cloned s k) (htraced : Traced t t s [id] R)
    (hk : R id k) (ht : t.Sound) (hu : t.Upward ∅) :
    s.Upward ∅ ↔ ∀ x, t.Reaches id x → ¬ t.CleanOverDirty x := by
  constructor
  · rintro hs x hr ⟨hclean, c, hc, hdirty⟩
    -- The way from the original to the node is there from copy to copy.
    obtain ⟨b, hb⟩ : ∃ b, R x b := by
      clear hclean hc hdirty
      induction hr with
      | refl => exact ⟨k, hk⟩
      | tail _ hstep ih =>
        obtain ⟨b, hb⟩ := ih
        obtain ⟨n, o, ds, hn, -, hds⟩ := htraced.copy hb
        rw [childrenOf_eq hn] at hstep
        obtain ⟨e, -, he⟩ := exists_of_forall₂_left hds hstep
        exact ⟨e, he⟩
    obtain ⟨n, o, ds, hn, hbf, hds⟩ := htraced.copy hb
    rw [childrenOf_eq hn] at hc
    obtain ⟨e, he, hce⟩ := exists_of_forall₂_left hds hc
    obtain ⟨m, q, es, hm, hef, -⟩ := htraced.copy hce
    rw [clean_iff hn] at hclean
    rw [dirty_iff hm] at hdirty
    exact hs e b (h.new (htraced.fresh hb) hbf he).2 ((dirty_iff hef).mpr hdirty)
      ((clean_iff hbf).mpr hclean)
  · intro hno
    refine hu.grow (fun _ _ ho => ht.arena.owner_live ho) (fun x hx => ?_) ?_
    · rw [markOf, markOf, h.old x hx, h.ownerOf hx]
      exact ⟨rfl, fun _ ho => Or.inl ho⟩
    · intro x p hx ho hdirty hclean
      have hmem := (h.sound ht).arena.mem_of_ownerOf ho
      obtain ⟨m, hm, hmem⟩ := mem_childrenOf.mp hmem
      have hp : ¬ t.Live p := by
        intro hp
        rw [h.old p hp] at hm
        exact hx (ht.arena.live hm hmem)
      obtain ⟨a, hap⟩ := htraced.whole p ⟨m, hm⟩ hp
      obtain ⟨n, o, ds, hn, hpf, hds⟩ := htraced.copy hap
      obtain rfl := Option.some.inj (hm.symm.trans hpf)
      obtain ⟨c, hc, hcx⟩ := exists_of_forall₂ hds hmem
      obtain ⟨l, q, es, hl, hxf, -⟩ := htraced.copy hcx
      obtain ⟨e, he, hr⟩ := htraced.below hap
      obtain rfl := List.mem_singleton.mp he
      rw [dirty_iff hxf] at hdirty
      rw [clean_iff hm] at hclean
      exact hno a hr ⟨(clean_iff hn).mpr hclean, c, by rwa [childrenOf_eq hn],
        (dirty_iff hl).mpr hdirty⟩

end Tree

namespace Edit

open Tree

variable [Scalar α] {t : Tree α} {p c : NodeId} {i : Nat} {n : Node α}

theorem ownChildren_upward_iff (h : t.Sound) (hu : t.Upward ∅) (p : NodeId) :
    ((ownChildren p).apply t).2.Upward ∅ ↔ ¬ t.CleanOverDirty p := by
  by_cases hp : t.Live p
  · obtain ⟨s, hrun, -, hpriv⟩ := ownChildren_run h hp
    rw [hrun]
    exact hpriv.upward_iff h.arena hp hu
  · rw [ownChildren, apply_bind, apply_node_none (not_live.mp hp)]
    exact iff_of_true hu (not_cleanOverDirty_of_dead hp)

theorem childForWrite_upward_iff (h : t.Sound) (hu : t.Upward ∅) (p : NodeId) (i : Nat) :
    ((childForWrite p i).apply t).2.Upward ∅ ↔
      ¬ (i < (t.childrenOf p).length ∧ t.CleanOverDirty p) := by
  by_cases hi : i < (t.childrenOf p).length
  · obtain ⟨n, hn, -⟩ := mem_childrenOf.mp (List.getElem_mem hi)
    obtain ⟨c, s, hrun, hopened⟩ := childForWrite_run h hn (by rwa [childrenOf_eq hn] at hi)
    rw [hrun]
    simpa [hi] using hopened.upward_iff h.arena ⟨n, hn⟩ hu
  · obtain ⟨e, hrun⟩ := childForWrite_beyond hi
    rw [hrun]
    exact iff_of_true hu fun hand => hi hand.1

/-- The new style mends what opening the child has done, if it marks the child: that is, if the
child was clean and the style is another. -/
theorem updateChildStyle_upward_iff (h : t.Sound) (hu : t.Upward ∅) (p : NodeId) (i : Nat)
    (f : Style α → Style α) :
    ((updateChildStyle p i f).apply t).2.Upward ∅ ↔
      ¬ ∃ c n, (t.childrenOf p)[i]? = some c ∧ t.find? c = some n ∧ t.CleanOverDirty p ∧
        (n.isDirty = true ∨ (f n.style != n.style) = false) := by
  by_cases hi : i < (t.childrenOf p).length
  · obtain ⟨l, hl, -⟩ := mem_childrenOf.mp (List.getElem_mem hi)
    obtain ⟨d, s, hrun, hopened⟩ := childForWrite_run h hl (by rwa [childrenOf_eq hl] at hi)
    obtain ⟨c, hc⟩ : ∃ c, (t.childrenOf p)[i]? = some c := ⟨_, List.getElem?_eq_getElem hi⟩
    obtain ⟨n, hn⟩ := h.arena.accounted.live (List.mem_of_getElem? hc)
    obtain ⟨j, hd⟩ := hopened.child hc hn
    obtain ⟨m, hm, hshared⟩ := hopened.unshared
    obtain rfl := Option.some.inj (hd.symm.trans hm)
    have hend : ((updateChildStyle p i f).apply t).2 = ((updateStyle d f).apply s).2 := by
      rw [updateChildStyle, apply_bind, hrun]
      simp only [apply_bind, apply_updateStyle hm hshared f, apply_pure]
    have hone : (∃ e m, (t.childrenOf p)[i]? = some e ∧ t.find? e = some m ∧ t.CleanOverDirty p ∧
        (m.isDirty = true ∨ (f m.style != m.style) = false)) ↔
        t.CleanOverDirty p ∧ (n.isDirty = true ∨ (f n.style != n.style) = false) := by
      simp [hc, hn]
    rw [hend, apply_updateStyle hm hshared f, hone]
    cases hstyle : f n.style != n.style with
    | true => simpa [hstyle] using hopened.soiled_upward_iff h.arena ⟨l, hl⟩ hu hm (f n.style)
    | false =>
      have hsame : (s.update d fun m => { m with style := f n.style }).Upward ∅ ↔ s.Upward ∅ :=
        upward_congr (markOf_update (by intros; rfl)) (ownerOf_update (by intros; rfl))
      simpa [hstyle] using hsame.trans (hopened.upward_iff h.arena ⟨l, hl⟩ hu)
  · obtain ⟨e, hrun⟩ := childForWrite_beyond hi
    rw [updateChildStyle, apply_bind, hrun]
    refine iff_of_true hu ?_
    rintro ⟨c, n, hc, -⟩
    exact hi (List.getElem?_eq_some_iff.mp hc).1

theorem copyOthers_absent (choose : Option (NodeId → Nat → Option Replacement)) {cs : List NodeId}
    (hc : c ∉ cs) (i : Nat) :
    (copyOthers p c choose i cs : Edit α (List NodeId)) = copyAll p choose i cs := by
  induction cs generalizing i with
  | nil => rfl
  | cons old cs ih =>
    have hne : old ≠ c := fun he => hc (by simp [he])
    rw [copyOthers, copyAll, if_neg (by simpa using hne)]
    simp only [ih (fun hm => hc (by simp [hm]))]

theorem removeChild_absent {first : NodeId} {rest : List NodeId} {m : Node α}
    (hn : t.find? p = some n) (hcs : n.children = first :: rest) (hm : t.find? first = some m)
    (ho : m.isOwnedBy p = false) (hc : c ∉ n.children) :
    (removeChild p c).apply t = (ownChildren p).apply t := by
  have hothers := copyOthers_absent (α := α) (p := p) n.config.onCopy hc 0
  rw [hcs] at hothers
  simp [removeChild, ownChildren, apply_bind, apply_node hn, hcs, apply_node hm, ho, hothers]

theorem removeChild_upward_iff (h : t.Sound) (hu : t.Upward ∅) (p c : NodeId) :
    ((removeChild p c).apply t).2.Upward ∅ ↔ ¬ (c ∉ t.childrenOf p ∧ t.CleanOverDirty p) := by
  by_cases hp : t.Live p
  swap
  · rw [removeChild, apply_bind, apply_node_none (not_live.mp hp)]
    exact iff_of_true hu fun hand => not_cleanOverDirty_of_dead hp hand.2
  obtain ⟨n, hn⟩ := hp
  have hlist := childrenOf_eq hn
  rcases removeChild_cases h hn c with ⟨howned, s, hrun, hs⟩ |
    ⟨first, rest, m, ks, s, hcs, hm, ho, -, -, -, -, hus, hdirty, hrun⟩
  · rw [hrun]
    refine iff_of_true ?_ fun hand => ?_
    · rcases hs with rfl | ⟨-, rfl⟩
      · exact hu
      · exact (hu.cut p c).soilUpwards_keeps p
    · obtain ⟨d, hd, hdo⟩ := hand.2.not_owned hu
      simp [howned d (by rwa [← hlist])] at hdo
  · by_cases hc : c ∈ n.children
    · rw [hrun]
      refine iff_of_true ?_ fun hand => hand.1 (by rwa [hlist])
      have hmended : s.Upward ∅ := by
        refine Upward.discharge (p := p) ?_ fun hclean => hclean.not_dirty (hdirty hc)
        simpa using hus (hu.mono (Set.empty_subset _))
      exact hmended.update p (by intros; rfl) fun _ _ _ ho => Or.inl ho
    · rw [removeChild_absent hn hcs hm ho hc, ownChildren_upward_iff h hu]
      simp [hlist, hc]

omit [Scalar α] in
theorem deepClone_upward_iff (h : t.Sound) (hu : t.Upward ∅) {id : NodeId}
    (hg : t.Live id → t.Grounded id) :
    ((deepClone id).apply t).2.Upward ∅ ↔ ¬ ∃ x, t.Reaches id x ∧ t.CleanOverDirty x := by
  by_cases hl : t.Live id
  · obtain ⟨k, s, R, hrun, hc, htraced, hk⟩ := deepClone_run h.ordered (hg hl)
    rw [hrun 0, hc.upward_iff htraced hk h hu]
    simp
  · have hend : ((deepClone id).apply t).2 = t := by
      rw [deepClone, apply_bind, apply_get]
      simp only [cloneSubtree_succ, apply_bind, apply_node_none (not_live.mp hl)]
    rw [hend]
    refine iff_of_true hu ?_
    rintro ⟨x, hr, hx⟩
    rcases Relation.ReflTransGen.cases_head hr with rfl | ⟨c, hc, -⟩
    · exact not_cleanOverDirty_of_dead hl hx
    · simp [childrenOf_absent hl] at hc

end Edit

end Flexbox
