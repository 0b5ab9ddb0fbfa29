import Flexbox.Proofs.Denotation

namespace Flexbox

variable {α : Type}

namespace Tree

variable {t s u : Tree α} {root c : NodeId}

/-- `s` has no node that `t` has not, and none that lists more or is listed more. -/
def Thinner (t s : Tree α) : Prop :=
  ∀ x m, s.find? x = some m → ∃ n, t.find? x = some n ∧
    m.children.Sublist n.children ∧ m.sharedCount ≤ n.sharedCount

theorem Thinner.refl (t : Tree α) : t.Thinner t := fun _ m hm => ⟨m, hm, .refl _, le_rfl⟩

section

variable (h : t.Thinner s)

include h

theorem Thinner.trans (h' : s.Thinner u) : t.Thinner u := by
  intro x m hm
  obtain ⟨k, hk, hkc, hks⟩ := h' x m hm
  obtain ⟨n, hn, hnc, hns⟩ := h x k hk
  exact ⟨n, hn, hkc.trans hnc, hks.trans hns⟩

theorem Thinner.childrenOf (x : NodeId) : (s.childrenOf x).Sublist (t.childrenOf x) := by
  cases hm : s.find? x with
  | none => simp [Tree.childrenOf, hm]
  | some m =>
    obtain ⟨n, hn, hc, -⟩ := h x m hm
    rwa [childrenOf_eq hm, childrenOf_eq hn]

theorem Thinner.update (id : NodeId) {f : Node α → Node α}
    (hf : ∀ n, (f n).children.Sublist n.children ∧ (f n).sharedCount ≤ n.sharedCount) :
    t.Thinner (s.update id f) := by
  refine h.trans fun x m hm => ?_
  obtain ⟨n, -, hn, rfl⟩ | ⟨-, hm⟩ := find?_update_cases hm
  · exact ⟨n, hn, hf n⟩
  · exact ⟨m, hm, .refl _, le_rfl⟩

theorem Thinner.unlist (p c : NodeId) : t.Thinner (s.unlist p c) := by
  refine h.update c fun n => ?_
  split
  · exact ⟨.refl _, le_rfl⟩
  · exact ⟨.refl _, Nat.sub_le _ _⟩

theorem Thinner.erase (id : NodeId) : t.Thinner (s.erase id) := by
  refine h.trans fun x m hm => ?_
  rw [find?_erase] at hm
  split at hm
  · cases hm
  · exact ⟨m, hm, .refl _, le_rfl⟩

end

section

variable (h : t.Thinner s)

include h

theorem Thinner.soilUpwards (id : NodeId) : t.Thinner (s.soilUpwards id) := by
  refine h.trans fun x m hm => ?_
  have he := map_find?_soilUpwards (g := fun n => (n.children, n.sharedCount)) (fun _ => rfl) s id x
  rw [hm] at he
  obtain ⟨n, hn, hnm⟩ := Option.map_eq_some_iff.mp he.symm
  obtain ⟨hc, hs⟩ := Prod.mk.inj hnm
  exact ⟨n, hn, by rw [hc], by rw [hs]⟩

theorem Thinner.cut [Scalar α] (root c : NodeId) : t.Thinner (s.cut root c) := by
  have hroot := h.update root (f := fun n => { n with children := n.children.erase c })
    fun _ => ⟨List.erase_sublist, le_rfl⟩
  exact hroot.update c fun _ => ⟨.refl _, le_rfl⟩

theorem Thinner.unfold_isSome (hs : s.Sound) {depth : Nat} {id : NodeId} (hl : s.Live id)
    (hu : (t.unfold depth id).isSome) : (s.unfold depth id).isSome := by
  induction depth generalizing id with
  | zero => simp [Tree.unfold] at hu
  | succ depth ih =>
    obtain ⟨-, hall⟩ := Tree.unfold_isSome.mp hu
    refine Tree.unfold_isSome.mpr ⟨hl, fun c hc => ?_⟩
    exact ih (hs.arena.accounted.live hc) (hall c ((h.childrenOf id).subset hc))

theorem Thinner.reaches {x y : NodeId} (hr : s.Reaches x y) : t.Reaches x y :=
  Relation.ReflTransGen.mono (fun p _ hc => (h.childrenOf p).subset hc) x y hr

end

end Tree

namespace Edit

open Tree (live_update live_cut find?_erase)

variable {t u : Tree α} {root c : NodeId}

theorem free_thinner (h : u.Thinner t) (id : NodeId) : u.Thinner ((free id).apply t).2 :=
  final_free id (fun _ p hs => hs.update p fun _ => ⟨List.filter_sublist, le_rfl⟩)
    (fun _ hs => hs.erase id) (fun _ c hs => hs.unlist id c) h

theorem free_keeps_live {x : NodeId} (hx : x ≠ c) (hl : t.Live x) :
    ((free c).apply t).2.Live x := by
  refine final_free (P := fun s => s.Live x) c (fun _ _ hs => live_update.mpr hs)
    (fun s hs => hs.congr ?_) (fun _ _ hs => live_update.mpr hs) hl
  rw [find?_erase, if_neg hx]

variable [Scalar α] {release : NodeId → Edit α Unit} {n m : Node α} {depth : Nat}

theorem releaseChildren_first {rest : List NodeId} (hn : t.find? root = some n)
    (hcs : n.children = c :: rest) (hm : t.find? c = some m) (ho : m.isOwnedBy root = true)
    (steps : Nat) :
    (releaseChildren release root (steps + 1)).apply t = (do
      if !(← node c).isShared then release c
      releaseChildren release root steps : Edit α Unit).apply
        ((t.cut root c).soilUpwards root) := by
  have hremove := removeOwned_run hn hcs hm ho (by simp [hcs]) ⟨m, hm⟩
  simp [releaseChildren, apply_bind, apply_node hn, hcs, apply_node hm, ho, hremove]

theorem thinner_outlasts : Outlasts u.Thinner where
  remove h hn hcs hm ho := by
    rw [removeOwned_run hn hcs hm ho (by simp [hcs]) ⟨_, hm⟩]
    exact (h.cut _ _).soilUpwards _
  tell h _ := h
  free h := free_thinner h

theorem freeRecursiveWith_frees (h : t.Balanced) (cleanup : Node α → List (Event α))
    (hc : c ∈ t.childrenOf root) (ho : t.owns root c = true) (spare : Nat) :
    ((freeRecursiveWith cleanup root spare).apply t).2 ≠ t := by
  obtain ⟨n, hn, hcn⟩ := Tree.mem_childrenOf.mp hc
  obtain ⟨first, rest, hcs⟩ := List.exists_cons_of_ne_nil (List.ne_nil_of_mem hcn)
  obtain ⟨m, hm⟩ := h.live hn (c := first) (by simp [hcs])
  have hfirst : m.isOwnedBy root = true := by
    rw [← Tree.owns_eq hm]
    exact (h.whole root).owned hc ho first (by simp [Tree.childrenOf_eq hn, hcs])
  let w := (t.cut root first).soilUpwards root
  have hw : (w.childrenOf root).length < (t.childrenOf root).length := by
    simp only [w, (Tree.soilUpwards_links _ _).2.1, Tree.childrenOf_cut, if_true,
      Tree.childrenOf_eq hn, hcs, List.erase_cons_head, List.length_cons, Nat.lt_succ_self]
  have hend : w.Thinner ((freeRecursiveWith cleanup root spare).apply t).2 := by
    refine final_bind apply_get ?_
    have hfuel : t.slots.size + 1 + spare = t.slots.size + spare + 1 := by omega
    rw [hfuel, freeSubtree]
    refine final_bind (apply_node hn) (final_seq ?_ fun _ s hs => ?_)
    · rw [releaseChildren_first hn hcs hm hfirst]
      refine final_node (Tree.Thinner.refl w) fun d _ => ?_
      have hrelease := fun (s : Tree α) c (hs : w.Thinner s) =>
        thinner_outlasts.freeSubtree cleanup (t.slots.size + spare) c hs
      split
      · exact final_seq (hrelease _ _ (.refl w)) fun _ s hs =>
          thinner_outlasts.releaseChildren hrelease root _ hs
      · exact thinner_outlasts.releaseChildren hrelease root _ (.refl w)
    · refine final_node hs fun m _ => final_bind (apply_modify _) ?_
      exact free_thinner (thinner_outlasts.tellAll hs _) root
  intro he
  rw [he] at hend
  have hle := (hend.childrenOf root).length_le
  omega

theorem freeRecursiveWith_idle (h : t.Balanced) (cleanup : Node α → List (Event α))
    (hn : t.find? root = some n) (ho : ∀ c ∈ t.childrenOf root, t.owns root c = false)
    (spare : Nat) :
    (freeRecursiveWith cleanup root spare).apply t =
      (free root).apply ((cleanup n).foldl Tree.tell t) := by
  have hrelease : ∀ release steps,
      (releaseChildren release root (steps + 1)).apply t = (.ok ⟨⟩, t) := by
    intro release steps
    cases hcs : n.children with
    | nil => simp [releaseChildren, apply_bind, apply_node hn, hcs]
    | cons c rest =>
      obtain ⟨m, hm⟩ := h.live hn (c := c) (by simp [hcs])
      have hmo : m.isOwnedBy root = false := by
        rw [← Tree.owns_eq hm]
        exact ho c (by simp [Tree.childrenOf_eq hn, hcs])
      simp [releaseChildren, apply_bind, apply_node hn, hcs, apply_node hm, hmo]
  have hfuel : t.slots.size + 1 + spare = t.slots.size + spare + 1 := by omega
  simp [freeRecursiveWith, hfuel, freeSubtree, apply_bind, apply_node hn, hrelease]

theorem freeRecursiveWith_missing (hl : ¬ t.Live root) (cleanup : Node α → List (Event α))
    (spare : Nat) : ((freeRecursiveWith cleanup root spare).apply t).2 = t := by
  have hfuel : t.slots.size + 1 + spare = t.slots.size + spare + 1 := by omega
  simp [freeRecursiveWith, hfuel, freeSubtree, apply_bind, apply_node_none (Tree.not_live.mp hl)]

/-- `s` is `t` after all that goes with `root` is gone: nothing else is. -/
structure Freed (t : Tree α) (root : NodeId) (s : Tree α) : Prop where
  sound : s.Sound
  thinner : t.Thinner s
  live : ∀ x, t.Live x → ¬ t.Reaches root x → s.Live x

omit [Scalar α] in
theorem Freed.trans {s v : Tree α} (h : t.Thinner s)
    (hl : ∀ x, t.Live x → ¬ t.Reaches root x → s.Live x) (hv : Freed s root v) : Freed t root v :=
  ⟨hv.sound, h.trans hv.thinner, fun x hx hn => hv.live x (hl x hx hn) fun hr => hn (h.reaches hr)⟩

theorem releaseChildren_succeeds (release : NodeId → Edit α Unit)
    (hr : ∀ t c m, Tree.Sound t → (t.unfold depth c).isSome → t.find? c = some m →
      m.isShared = false → ∃ s, (release c).apply t = (.ok ⟨⟩, s) ∧ Freed t c s)
    (steps : Nat) (h : t.Sound) (hu : (t.unfold (depth + 1) root).isSome) :
    ∃ s, (releaseChildren release root steps).apply t = (.ok ⟨⟩, s) ∧ Freed t root s ∧
      s.Live root := by
  induction steps generalizing t with
  | zero => exact ⟨t, rfl, ⟨h, .refl t, fun _ hx _ => hx⟩, (Tree.unfold_isSome.mp hu).1⟩
  | succ steps ih =>
    obtain ⟨⟨n, hn⟩, hall⟩ := Tree.unfold_isSome.mp hu
    have hlist := Tree.childrenOf_eq hn
    cases hcs : n.children with
    | nil =>
      refine ⟨t, ?_, ⟨h, .refl t, fun _ hx _ => hx⟩, n, hn⟩
      simp [releaseChildren, apply_bind, apply_node hn, hcs]
    | cons c rest =>
      have hc : c ∈ t.childrenOf root := by simp [hlist, hcs]
      obtain ⟨m, hm⟩ := h.arena.accounted.live hc
      cases ho : m.isOwnedBy root with
      | false =>
        refine ⟨t, ?_, ⟨h, .refl t, fun _ hx _ => hx⟩, n, hn⟩
        simp [releaseChildren, apply_bind, apply_node hn, hcs, apply_node hm, ho]
      | true =>
        have hremove := removeOwned_run hn hcs hm ho (by simp [hcs]) ⟨m, hm⟩
        have hw := (removeChild_ends h root c).sound h
        rw [hremove] at hw
        dsimp only at hw
        have hthin := ((Tree.Thinner.refl t).cut root c).soilUpwards root
        have hlive : ∀ x, t.Live x → ((t.cut root c).soilUpwards root).Live x := fun x hx =>
          ((Tree.soilUpwards_links _ _).1 x).mpr (live_cut.mpr hx)
        rw [releaseChildren_first hn hcs hm ho steps]
        generalize (t.cut root c).soilUpwards root = w at hw hthin hlive
        obtain ⟨d, hd⟩ := hlive c ⟨m, hm⟩
        rw [apply_bind, apply_node hd]
        cases hs : d.isShared with
        | true =>
          obtain ⟨s, hrun, hfreed, hsl⟩ := ih hw (hthin.unfold_isSome hw (hlive root ⟨n, hn⟩) hu)
          exact ⟨s, by simpa [hs] using hrun, .trans hthin (fun x hx _ => hlive x hx) hfreed, hsl⟩
        | false =>
          obtain ⟨v, hrelease, hv⟩ := hr w c d hw (hthin.unfold_isSome hw ⟨d, hd⟩ (hall c hc)) hd hs
          have hvr : v.Live root := hv.live root (hlive root ⟨n, hn⟩) fun hreach =>
            Tree.Grounded.not_reached ⟨depth + 1, hu⟩ hc (hthin.reaches hreach)
          have htv := hthin.trans hv.thinner
          obtain ⟨s, hrun, hfreed, hsl⟩ := ih hv.sound (htv.unfold_isSome hv.sound hvr hu)
          refine ⟨s, ?_, .trans htv (fun x hx hno => ?_) hfreed, hsl⟩
          · simpa [hs, apply_bind, hrelease] using hrun
          · exact hv.live x (hlive x hx) fun hreach => hno (.of_child hc (hthin.reaches hreach))

theorem freeSubtree_succeeds (cleanup : Node α → List (Event α)) {fuel : Nat} (h : t.Sound)
    (hu : (t.unfold depth root).isSome) (hm : t.find? root = some m) (hs : m.isShared = false)
    (hf : depth ≤ fuel) :
    ∃ s, (freeSubtree cleanup fuel root).apply t = (.ok ⟨⟩, s) ∧ Freed t root s := by
  induction depth generalizing t root m fuel with
  | zero => cases hu
  | succ depth ih =>
    obtain ⟨fuel, rfl⟩ := exists_pred hf
    obtain ⟨s, hrun, hfreed, n, hn⟩ := releaseChildren_succeeds (freeSubtree cleanup fuel)
      (fun t c m ht hu hm hs => ih ht hu hm hs (by omega)) (m.children.length + 1) h hu
    -- The root is not shared more than before.
    obtain ⟨k, hk, -, hle⟩ := hfreed.thinner root n hn
    have hns : n.isShared = false := by
      obtain rfl : m = k := Option.some.inj (hm.symm.trans hk)
      simp only [Node.isShared] at hs ⊢
      simp at hs ⊢
      omega
    have htold : ((cleanup n).foldl Tree.tell s).find? = s.find? :=
      List.foldlRecOn (motive := fun u : Tree α => u.find? = s.find?) _ _ rfl fun _ h _ _ => h
    obtain ⟨b, v, hgone, -⟩ := free_runs (P := fun _ => True) root (fun _ _ _ => trivial)
      (fun _ _ => trivial) (fun _ _ _ => trivial) trivial (by rw [htold, hn]) hns
    have hv : ((free root).apply ((cleanup n).foldl Tree.tell s)).2 = v := by rw [hgone]
    refine ⟨v, ?_, ?_, ?_, fun x hx hno => ?_⟩
    · simp [freeSubtree, apply_bind, apply_node hm, hrun, apply_node hn, hgone]
    · rw [← hv]
      exact free_sound (sound_outlasts.tellAll hfreed.sound _) root
    · rw [← hv]
      exact free_thinner (thinner_outlasts.tellAll hfreed.thinner _) root
    · rw [← hv]
      refine free_keeps_live (fun he => hno (he ▸ .refl)) ?_
      exact (hfreed.live x hx hno).congr (by rw [htold])

theorem freeRecursiveWith_succeeds (cleanup : Node α → List (Event α)) (h : t.Sound)
    (hg : t.Grounded root) (hs : t.sharers root = ∅) (spare : Nat) :
    ∃ s, (freeRecursiveWith cleanup root spare).apply t = (.ok ⟨⟩, s) ∧ Freed t root s := by
  obtain ⟨m, hm⟩ := hg.live
  have hshared : m.isShared = false := by
    simp [Node.isShared, h.arena.count hm, hs]
  obtain ⟨s, hrun, hfreed⟩ := freeSubtree_succeeds cleanup h hg.unfold_slots hm hshared
    (show t.slots.size ≤ t.slots.size + 1 + spare by omega)
  refine ⟨s, ?_, hfreed⟩
  rw [freeRecursiveWith, apply_bind, apply_get]
  exact hrun

end Edit

end Flexbox
