import Flexbox.Proofs.Cloning
import Flexbox.Proofs.Sweeping

namespace Flexbox

variable {α : Type}

namespace Tree

variable {t s u : Tree α} {S T : Set NodeId} {id c k root : NodeId}

structure Secluded (t : Tree α) (S : Set NodeId) : Prop extends t.Region S where
  owned : ∀ x ∈ S, ∀ c ∈ t.childrenOf x, t.ownerOf c = some x
  apart : ∀ x, x ∉ S → ∀ c ∈ t.childrenOf x, c ∉ S

/-- Without an owner and on no list. -/
def Detached (t : Tree α) (id : NodeId) : Prop :=
  t.ownerOf id = none ∧ ∀ q, id ∉ t.childrenOf q

theorem Secluded.congr (h : t.Secluded S) (hl : ∀ x, s.Live x ↔ t.Live x)
    (hc : s.childrenOf = t.childrenOf) (ho : s.ownerOf = t.ownerOf) : s.Secluded S := by
  refine ⟨⟨?_, fun x hx => h.unused x (by rwa [← hl])⟩, ?_, ?_⟩
  · rw [hc]
    exact h.closed
  · rw [hc, ho]
    exact h.owned
  · rw [hc]
    exact h.apart

theorem Cloned.secluded (h : t.Cloned s k) (ht : t.Ordered) : s.Secluded {x | ¬ t.Live x} := by
  refine ⟨⟨?_, fun x hx hl => hx (h.toExtends.live hl)⟩, ?_, ?_⟩
  · intro x hx c hc
    obtain ⟨n, hn, hc⟩ := mem_childrenOf.mp hc
    exact (h.new hx hn hc).1
  · intro x hx c hc
    obtain ⟨n, hn, hc⟩ := mem_childrenOf.mp hc
    exact (h.new hx hn hc).2
  · intro x hx c hc hcl
    have hxl : t.Live x := by simpa using hx
    rw [h.childrenOf hxl] at hc
    obtain ⟨n, hn, hc⟩ := mem_childrenOf.mp hc
    exact hcl (ht.live hn hc)

theorem Cloned.detached (h : t.Cloned s k) (ht : t.Ordered) : s.Detached k := by
  refine ⟨h.root, fun q hq => ?_⟩
  by_cases hql : t.Live q
  · rw [h.childrenOf hql] at hq
    obtain ⟨n, hn, hc⟩ := mem_childrenOf.mp hq
    exact h.fresh (ht.live hn hc)
  · obtain ⟨n, hn, hc⟩ := mem_childrenOf.mp hq
    have ho := (h.new hql hn hc).2
    rw [h.root] at ho
    cases ho

/-- A secluded region whose lists hold nodes that are there, each once and counted for no other
list. -/
structure Neat (t : Tree α) (S : Set NodeId) : Prop extends t.Secluded S where
  live : ∀ x ∈ S, ∀ c ∈ t.childrenOf x, t.Live c
  nodup : ∀ x ∈ S, (t.childrenOf x).Nodup
  unshared : ∀ x ∈ S, ∀ n, t.find? x = some n → n.isShared = false

theorem Secluded.neat (h : t.Secluded S) (ht : t.Arena) : t.Neat S := by
  refine ⟨h, fun x _ c hc => ht.accounted.live hc, fun x _ => ht.accounted.nodup x,
    fun x hx n hn => ?_⟩
  have hz : t.sharers x = ∅ := by
    ext q
    by_cases hq : q ∈ S
    · simpa [sharers] using fun _ hm => by simp [owns, h.owned q hq x hm]
    · simpa [sharers] using fun _ hm => absurd hx (h.apart q hq x hm)
  simp [Node.isShared, ht.count hn, hz]

/-- A node and all below it, and the names that are not in use. -/
def below (t : Tree α) (id : NodeId) : Set NodeId :=
  {x | t.Live x → Relation.ReflTransGen (fun p c => c ∈ t.childrenOf p) id x}

theorem below_self : id ∈ t.below id := fun _ => .refl

theorem Secluded.below_subset (h : t.Secluded S) (hid : id ∈ S) : t.below id ⊆ S := by
  intro x hx
  by_cases hl : t.Live x
  · induction hx hl with
    | refl => exact hid
    | tail hxy hc ih =>
      rename_i y z
      have hy : t.Live y := by
        obtain ⟨n, hn, -⟩ := mem_childrenOf.mp hc
        exact ⟨n, hn⟩
      exact h.closed y (ih (fun _ => hxy) hy) z hc
  · exact h.unused x hl

theorem Neat.below (h : t.Neat S) (hid : id ∈ S) (hd : t.Detached id) : t.Neat (t.below id) := by
  have hlive : ∀ {x c}, c ∈ t.childrenOf x → t.Live x ∧ t.Live c := by
    intro x c hc
    obtain ⟨n, hn, -⟩ := mem_childrenOf.mp hc
    refine ⟨⟨n, hn⟩, ?_⟩
    by_cases hx : x ∈ S
    · exact h.live x hx c hc
    · by_contra hcl
      exact h.apart x hx c hc (h.unused c hcl)
  have hsub := h.below_subset hid
  refine ⟨⟨⟨?_, fun x hx hl => absurd hl hx⟩, fun x hx => h.owned x (hsub hx), ?_⟩,
    fun x hx => h.live x (hsub hx), fun x hx => h.nodup x (hsub hx),
    fun x hx => h.unshared x (hsub hx)⟩
  · intro x hx c hc _
    exact (hx (hlive hc).1).tail hc
  · intro x hx c hc hcb
    rcases Relation.ReflTransGen.cases_tail (hcb (hlive hc).2) with he | ⟨y, hy, hcy⟩
    · exact hd.2 x (he ▸ hc)
    · have hyS : y ∈ S := h.below_subset hid fun _ => hy
      have hcS : c ∈ S := h.closed y hyS c hcy
      by_cases hxS : x ∈ S
      · have he : x = y := Option.some.inj ((h.owned x hxS c hc).symm.trans (h.owned y hyS c hcy))
        exact hx fun _ => he ▸ hy
      · exact h.apart x hxS c hc hcS

theorem Secluded.exchange (h : t.Secluded S) (hsub : T ⊆ S) (ht : t.Secluded T)
    (hs : s.Secluded T) (hout : ∀ x, x ∉ T → s.find? x = t.find? x) : s.Secluded S := by
  have hch : ∀ x, x ∉ T → s.childrenOf x = t.childrenOf x := fun x hx => by
    rw [childrenOf, hout x hx, childrenOf]
  refine ⟨⟨?_, ?_⟩, ?_, ?_⟩
  · intro x hx c hc
    by_cases hxT : x ∈ T
    · exact hsub (hs.closed x hxT c hc)
    · exact h.closed x hx c (by rwa [← hch x hxT])
  · intro x hx
    by_cases hxT : x ∈ T
    · exact hsub hxT
    · exact h.unused x fun hl => hx (hl.congr (hout x hxT))
  · intro x hx c hc
    by_cases hxT : x ∈ T
    · exact hs.owned x hxT c hc
    · rw [hch x hxT] at hc
      rw [ownerOf, hout c (ht.apart x hxT c hc)]
      exact h.owned x hx c hc
  · intro x hx c hc
    rw [hch x fun hxT => hx (hsub hxT)] at hc
    exact h.apart x hx c hc

theorem Neat.exchange (h : t.Neat S) (hsub : T ⊆ S) (ht : t.Neat T) (hs : s.Neat T)
    (hout : ∀ x, x ∉ T → s.find? x = t.find? x) : s.Neat S := by
  have hch : ∀ x, x ∉ T → s.childrenOf x = t.childrenOf x := fun x hx => by
    rw [childrenOf, hout x hx, childrenOf]
  refine ⟨h.toSecluded.exchange hsub ht.toSecluded hs.toSecluded hout, fun x hx c hc => ?_,
    fun x hx => ?_, fun x hx n hn => ?_⟩
  · by_cases hxT : x ∈ T
    · exact hs.live x hxT c hc
    · rw [hch x hxT] at hc
      exact (h.live x hx c hc).congr (hout c (ht.apart x hxT c hc))
  · by_cases hxT : x ∈ T
    · exact hs.nodup x hxT
    · rw [hch x hxT]
      exact h.nodup x hx
  · by_cases hxT : x ∈ T
    · exact hs.unshared x hxT n hn
    · exact h.unshared x hx n (by rwa [← hout x hxT])

theorem unfold_isSome_of_subset (hl : ∀ x, t.Live x → s.Live x)
    (hc : ∀ x, s.childrenOf x ⊆ t.childrenOf x) {h : Nat} (hu : (t.unfold h id).isSome) :
    (s.unfold h id).isSome := by
  induction h generalizing id with
  | zero => cases hu
  | succ h ih =>
    obtain ⟨hlive, hall⟩ := unfold_isSome.mp hu
    exact unfold_isSome.mpr ⟨hl id hlive, fun c hm => ih (hall c (hc id hm))⟩

theorem soilUpwards_links (t : Tree α) (id : NodeId) :
    (∀ x, (t.soilUpwards id).Live x ↔ t.Live x) ∧ (t.soilUpwards id).childrenOf = t.childrenOf ∧
      (t.soilUpwards id).ownerOf = t.ownerOf := by
  refine soilChain_keeps (P := fun s => (∀ x, s.Live x ↔ t.Live x) ∧ s.childrenOf = t.childrenOf ∧
    s.ownerOf = t.ownerOf) ?_ (fun _ _ hs => hs) _ _ ⟨fun _ => Iff.rfl, rfl, rfl⟩
  rintro s x ⟨hl, hc, ho⟩
  refine ⟨fun y => live_update.trans (hl y), ?_, ?_⟩
  · rw [childrenOf_update (by intros; rfl), hc]
  · rw [ownerOf_update (by intros; rfl), ho]

theorem find?_soilUpwards (ho : t.ownerOf root = none) {x : NodeId} (hx : x ≠ root) :
    (t.soilUpwards root).find? x = t.find? x := by
  unfold soilUpwards
  rw [soilChain]
  cases hn : t.find? root with
  | none => rfl
  | some n =>
    rw [ownerOf_eq hn] at ho
    dsimp only
    split
    · rfl
    · have hsoil : (t.soil root n).find? x = t.find? x := by
        unfold soil
        cases n.dirtied <;> exact find?_update_other t _ hx
      rw [ho, ← hsoil]
      cases t.slots.size <;> rfl

section Cut

variable [Scalar α] {x : NodeId}

theorem Secluded.cut (h : t.Secluded S) (hu : (t.childrenOf root).Nodup)
    (hc : t.ownerOf c = some root) : (t.cut root c).Secluded S := by
  have hsub : ∀ x, (t.cut root c).childrenOf x ⊆ t.childrenOf x := by
    intro x d hd
    rw [childrenOf_cut] at hd
    split at hd
    · rename_i hx
      rw [hx]
      exact List.mem_of_mem_erase hd
    · exact hd
  refine ⟨⟨fun x hx d hd => h.closed x hx d (hsub x hd),
    fun x hx => h.unused x fun hl => hx (live_cut.mpr hl)⟩, ?_,
    fun x hx d hd => h.apart x hx d (hsub x hd)⟩
  intro x hx d hd
  have ho := h.owned x hx d (hsub x hd)
  have hdc : d ≠ c := by
    rintro rfl
    obtain rfl : root = x := Option.some.inj (hc.symm.trans ho)
    rw [childrenOf_cut, if_pos rfl, hu.mem_erase_iff] at hd
    exact hd.1 rfl
  rw [ownerOf_cut, if_neg hdc, ho]

end Cut

end Tree

namespace Edit

open Tree

variable [Scalar α] {t u : Tree α} {S : Set NodeId} {root c : NodeId} {h : Nat}
  {rest : List NodeId}

theorem removeFirst_run (hs : t.Neat S) (hr : root ∈ S) (hcs : t.childrenOf root = c :: rest) :
    (removeChild root c).apply t = (.ok ⟨⟩, (t.cut root c).soilUpwards root) := by
  have hcm : c ∈ t.childrenOf root := by simp [hcs]
  obtain ⟨n, hn, hcn⟩ := mem_childrenOf.mp hcm
  have hlist : n.children = c :: rest := by rw [← childrenOf_eq hn, hcs]
  obtain ⟨m, hm⟩ := hs.live root hr c hcm
  have hmo : m.isOwnedBy root = true := by
    simp [Node.isOwnedBy, ← ownerOf_eq hm, hs.owned root hr c hcm]
  exact removeOwned_run hn hlist hm hmo hcn ⟨m, hm⟩

/-- The tree once the first child of a detached root is taken off: both stand alone, and the rest
of the region is as it was. -/
structure FirstGone (t w : Tree α) (S : Set NodeId) (root c : NodeId) (rest : List NodeId) :
    Prop where
  neat : w.Neat S
  parent : w.Detached root
  child : w.Detached c
  children : w.childrenOf root = rest
  live : ∀ x, w.Live x ↔ t.Live x
  others : ∀ x, x ≠ root → w.childrenOf x = t.childrenOf x
  outside : ∀ x, x ∉ S → w.find? x = t.find? x

theorem firstGone_cut (hs : t.Neat S) (hr : root ∈ S) (hd : t.Detached root)
    (hcs : t.childrenOf root = c :: rest) :
    FirstGone t ((t.cut root c).soilUpwards root) S root c rest := by
  have hcm : c ∈ t.childrenOf root := by simp [hcs]
  have hcr : c ≠ root := fun he => hd.2 root (he ▸ hcm)
  have hnodup := hs.nodup root hr
  have hco := hs.owned root hr c hcm
  have hcS := hs.closed root hr c hcm
  obtain ⟨hlw, hcw, how⟩ := soilUpwards_links (t.cut root c) root
  have howner : (t.cut root c).ownerOf root = none := by rw [ownerOf_cut, if_neg hcr.symm, hd.1]
  have hlive : ∀ x, ((t.cut root c).soilUpwards root).Live x ↔ t.Live x := fun x =>
    (hlw x).trans live_cut
  have hsub : ∀ x, (((t.cut root c).soilUpwards root).childrenOf x).Sublist (t.childrenOf x) := by
    intro x
    rw [hcw, childrenOf_cut]
    split
    · rename_i hx
      rw [hx]
      exact List.erase_sublist
    · exact .refl _
  refine ⟨⟨(hs.toSecluded.cut hnodup hco).congr hlw hcw how, fun x hx d hdm =>
      (hlive d).mpr (hs.live x hx d ((hsub x).subset hdm)),
      fun x hx => (hs.nodup x hx).sublist (hsub x), fun x hx n hn => ?_⟩,
    ⟨by rw [how, howner], fun q hq => hd.2 q ((hsub q).subset hq)⟩,
    ⟨by rw [how, ownerOf_cut, if_pos rfl], fun q hq => ?_⟩, ?_, hlive,
    fun x hx => by rw [hcw, childrenOf_cut, if_neg hx], ?_⟩
  · have he := map_find?_soilUpwards (g := Node.isShared) (fun _ => rfl) (t.cut root c) root x
    rw [Tree.cut, map_find?_update (by intros; rfl), map_find?_update (by intros; rfl), ← Tree.cut,
      hn] at he
    obtain ⟨m, hm, he⟩ := Option.map_eq_some_iff.mp he.symm
    rw [← he]
    exact hs.unshared x hx m hm
  · -- Only the root listed the child, and it does so no longer.
    have hqm := (hsub q).subset hq
    have hqS : q ∈ S := by
      by_contra hqS
      exact hs.apart q hqS c hqm hcS
    obtain rfl : root = q := Option.some.inj (hco.symm.trans (hs.owned q hqS c hqm))
    rw [hcw, childrenOf_cut, if_pos rfl, hnodup.mem_erase_iff] at hq
    exact hq.1 rfl
  · rw [hcw, childrenOf_cut, if_pos rfl, hcs, List.erase_cons_head]
  · intro x hx
    have hxr : x ≠ root := fun he => hx (he ▸ hr)
    rw [find?_soilUpwards howner hxr]
    exact find?_cut hxr fun he => hx (he ▸ hcS)

/-- What freeing nodes of height `h` comes to. More fuel than the height makes no difference. All
below the root is gone, and outside the region there is no trace. -/
def Frees (α : Type) [Scalar α] (h : Nat) : Prop :=
  ∀ (t : Tree α) (S : Set NodeId) (root : NodeId), t.Neat S → root ∈ S →
    t.Detached root → (t.unfold h root).isSome →
    ∃ s, (∀ fuel, h ≤ fuel → (freeSubtree (fun _ => []) fuel root).apply t = (.ok ⟨⟩, s)) ∧
      s.Neat S ∧ (∀ x, x ∉ S → s.find? x = t.find? x) ∧
      ∀ x, s.Live x → t.Live x ∧ ¬ t.Reaches root x

theorem releaseChildren_run (hfrees : Frees α h) (cs : List NodeId) {steps : Nat}
    (hsteps : cs.length < steps) (hs : t.Neat S) (hr : root ∈ S) (hl : t.Live root)
    (hd : t.Detached root) (hcs : t.childrenOf root = cs) (hu : ∀ c ∈ cs, (t.unfold h c).isSome) :
    ∃ s, (∀ fuel, h ≤ fuel →
        (releaseChildren (freeSubtree (fun _ => []) fuel) root steps).apply t = (.ok ⟨⟩, s)) ∧
      s.Neat S ∧ s.Live root ∧ s.Detached root ∧ s.childrenOf root = [] ∧
      (∀ x, x ∉ S → s.find? x = t.find? x) ∧
      ∀ x, s.Live x → t.Live x ∧ (x ≠ root → ¬ t.Reaches root x) := by
  induction cs generalizing t steps with
  | nil =>
    obtain ⟨steps, rfl⟩ : ∃ k, steps = k + 1 := ⟨steps - 1, by omega⟩
    refine ⟨t, fun fuel _ => ?_, hs, hl, hd, hcs, fun _ _ => rfl,
      fun x hx => ⟨hx, fun hne hx => ?_⟩⟩
    · obtain ⟨n, hn⟩ := hl
      rw [childrenOf_eq hn] at hcs
      simp [releaseChildren, apply_bind, apply_node hn, hcs]
    · rcases Relation.ReflTransGen.cases_head hx with he | ⟨d, hdm, -⟩
      · exact hne he.symm
      · simp [hcs] at hdm
  | cons c cs ih =>
    obtain ⟨steps, rfl⟩ : ∃ k, steps = k + 1 := ⟨steps - 1, by omega⟩
    have hcm : c ∈ t.childrenOf root := by simp [hcs]
    have hcS := hs.closed root hr c hcm
    have hcr : c ≠ root := fun he => hd.2 root (he ▸ hcm)
    have hremove := removeFirst_run hs hr hcs
    have hw := firstGone_cut hs hr hd hcs
    generalize (t.cut root c).soilUpwards root = w at hremove hw
    -- What lies below a child is the same in `w`, since no list has the root on it.
    have hbelow : ∀ {d y}, d ≠ root → (w.Reaches d y ↔ t.Reaches d y) := reaches_agree
      hw.others fun x e _ he her => hd.2 x (her ▸ he)
    have hdeep : ∀ d ∈ c :: cs, (w.unfold h d).isSome := fun d hdm =>
      unfold_isSome_of_subset (fun x hx => (hw.live x).mpr hx) (fun x => by
        by_cases hx : x = root
        · rw [hx, hw.children, hcs]
          exact List.subset_cons_self _ _
        · rw [hw.others x hx]
          exact List.Subset.refl _) (hu d hdm)
    -- The child is freed within what lies below it, and that is neither the root nor a sibling.
    have hT := hw.neat.below hcS hw.child
    obtain ⟨v, hv, hvT, hvo, hgone⟩ := hfrees w (w.below c) c hT below_self hw.child
      (hdeep c (by simp))
    have hsub := hw.neat.below_subset hcS
    have hrT : root ∉ w.below c := by
      intro hrT
      rcases Relation.ReflTransGen.cases_tail (hrT ((hw.live root).mpr hl)) with he | ⟨y, -, hy⟩
      · exact hcr he.symm
      · exact hw.parent.2 y hy
    have hvroot := hvo root hrT
    have hvlive : v.Live root := ((hw.live root).mpr hl).congr hvroot
    have hvd : v.Detached root := by
      refine ⟨by rw [Tree.ownerOf, hvroot]; exact hw.parent.1, fun q hq => ?_⟩
      by_cases hqT : q ∈ w.below c
      · exact hrT (hvT.closed q hqT root hq)
      · exact hw.parent.2 q (by rwa [Tree.childrenOf, hvo q hqT] at hq)
    have hvc : v.childrenOf root = cs := by
      rw [Tree.childrenOf, hvroot]
      exact hw.children
    have hsibling : ∀ d ∈ cs, d ∉ w.below c := fun d hdm =>
      hT.apart root hrT d (by rwa [hw.children])
    obtain ⟨s, hrun, hsS, hsl, hsd, hsc, hso, hleft⟩ := ih (by simpa using hsteps)
      (hw.neat.exchange hsub hT hvT hvo) hvlive hvd hvc fun d hdm => by
        rw [unfold_agree hvo (fun x n e hx hn he => hT.apart x hx e
          (mem_childrenOf.mpr ⟨n, hn, he⟩)) (hsibling d hdm)]
        exact hdeep d (by simp [hdm])
    refine ⟨s, fun fuel hf => ?_, hsS, hsl, hsd, hsc, fun x hx => ?_, fun x hx => ?_⟩
    · obtain ⟨n, hn⟩ := hl
      have hlist : n.children = c :: cs := by rw [← childrenOf_eq hn, hcs]
      obtain ⟨m, hm⟩ := hs.live root hr c hcm
      have hmo : m.isOwnedBy root := by
        simp [Node.isOwnedBy, ← ownerOf_eq hm, hs.owned root hr c hcm]
      obtain ⟨k, hk⟩ := (hw.live c).mpr ⟨m, hm⟩
      have hshared := hw.neat.unshared c hcS k hk
      simp only [releaseChildren, apply_bind, apply_node hn, hlist, apply_node hm, hmo, hremove,
        apply_node hk, hshared, Bool.not_true, Bool.not_false, Bool.false_eq_true, if_false,
        if_true, hv fuel hf, hrun fuel hf]
    · rw [hso x hx, hvo x fun hxT => hx (hsub hxT), hw.outside x hx]
    · obtain ⟨hxv, hfar⟩ := hleft x hx
      obtain ⟨hxw, hfree⟩ := hgone x hxv
      refine ⟨(hw.live x).mp hxw, fun hne hreach => ?_⟩
      rcases Relation.ReflTransGen.cases_head hreach with he | ⟨d, hdm, hdx⟩
      · exact hne he.symm
      have hdx := (hbelow fun he => hd.2 root (by rwa [he] at hdm)).mpr hdx
      rw [hcs] at hdm
      rcases List.mem_cons.mp hdm with rfl | hdm
      · exact hfree hdx
      · refine hfar hne (.of_child (by rwa [hvc]) ?_)
        exact (reaches_agree (fun y hy => by
          rw [Tree.childrenOf, hvo y hy, Tree.childrenOf]) (fun y e hy he => hT.apart y hy e he)
          (hsibling d hdm)).mpr hdx

omit [Scalar α] in
theorem free_run (hs : t.Neat S) (hr : root ∈ S) (hl : t.Live root) (hd : t.Detached root)
    (hc : t.childrenOf root = []) : (free root).apply t = (.ok ⟨⟩, t.erase root) := by
  obtain ⟨n, hn⟩ := hl
  have hshared := hs.unshared root hr n hn
  have ho : n.owner = none := by rw [← ownerOf_eq hn, hd.1]
  rw [childrenOf_eq hn] at hc
  simp [free, apply_bind, apply_node hn, hshared, ho, hn, hc]

theorem freeSubtree_run (h : Nat) : Frees α h := by
  induction h with
  | zero =>
    intro t S root _ _ _ hu
    cases hu
  | succ h ih =>
    intro t S root hs hr hd hu
    obtain ⟨hl, hall⟩ := unfold_isSome.mp hu
    obtain ⟨n, hn⟩ := hl
    have hlist := childrenOf_eq hn
    obtain ⟨s, hrun, hsS, hsl, hsd, hsc, hso, hleft⟩ := releaseChildren_run ih
      (t.childrenOf root) (Nat.lt_succ_self _) hs hr ⟨n, hn⟩ hd rfl hall
    have hfree := free_run hsS hr hsl hsd hsc
    have hother : ∀ x, x ≠ root → (s.erase root).find? x = s.find? x := fun x hx => by
      rw [find?_erase, if_neg hx]
    have hch : (s.erase root).childrenOf = s.childrenOf := by
      funext x
      by_cases hx : x = root
      · rw [hx, hsc, Tree.childrenOf, find?_erase, if_pos rfl]
        rfl
      · rw [Tree.childrenOf, hother x hx, Tree.childrenOf]
    have hback : ∀ {x m}, (s.erase root).find? x = some m → x ≠ root ∧ s.find? x = some m := by
      intro x m hm
      rw [find?_erase] at hm
      split at hm
      · cases hm
      · exact ⟨‹_›, hm⟩
    refine ⟨s.erase root, fun fuel hf => ?_, ⟨⟨⟨by rw [hch]; exact hsS.closed, fun x hx => ?_⟩,
      fun x hx c hc => ?_, by rw [hch]; exact hsS.apart⟩, fun x hx c hc => ?_,
      by rw [hch]; exact hsS.nodup, fun x hx m hm => hsS.unshared x hx m (hback hm).2⟩,
      fun x hx => ?_, fun x hx => ?_⟩
    · obtain ⟨fuel, rfl⟩ := exists_pred hf
      have hrun := hrun fuel (by omega)
      rw [hlist] at hrun
      obtain ⟨m, hm⟩ := hsl
      simp only [freeSubtree, apply_bind, apply_node hn, hrun, apply_node hm, List.foldl_nil,
        apply_modify, hfree]
    · by_cases hxr : x = root
      · exact hxr ▸ hr
      · exact hsS.unused x fun hl => hx (hl.congr (hother x hxr))
    · rw [hch] at hc
      rw [Tree.ownerOf, hother c fun he => hsd.2 x (he ▸ hc)]
      exact hsS.owned x hx c hc
    · rw [hch] at hc
      exact (hsS.live x hx c hc).congr (hother c fun he => hsd.2 x (he ▸ hc))
    · rw [hother x fun he => hx (he ▸ hr), hso x hx]
    · obtain ⟨m, hm⟩ := hx
      obtain ⟨hne, hm⟩ := hback hm
      exact ⟨(hleft x ⟨m, hm⟩).1, (hleft x ⟨m, hm⟩).2 hne⟩

theorem freeRecursive_run (hs : t.Neat S) (hr : root ∈ S) (hd : t.Detached root)
    (hg : t.Grounded root) :
    ∃ s, (∀ spare, (freeRecursive root spare).apply t = (.ok ⟨⟩, s)) ∧
      (∀ x, x ∉ S → s.find? x = t.find? x) ∧ ∀ x, s.Live x → t.Live x ∧ ¬ t.Reaches root x := by
  obtain ⟨s, hrun, -, hend⟩ := freeSubtree_run t.slots.size t S root hs hr hd hg.unfold_slots
  refine ⟨s, fun spare => ?_, hend⟩
  rw [freeRecursive, freeRecursiveWith, apply_bind, apply_get]
  exact hrun _ (by omega)

end Edit

namespace Tree

variable {t s u : Tree α} {S : Set NodeId} {id : NodeId}

/-- `s` is `t` with changes inside a secluded region that touch no link. -/
structure Inside (S : Set NodeId) (t s : Tree α) : Prop where
  sound : s.Sound
  secluded : s.Secluded S
  shape : t.SameShape s
  owners : s.ownerOf = t.ownerOf
  outside : ∀ x, x ∉ S → s.find? x = t.find? x

theorem Inside.refl (ht : t.Sound) (hs : t.Secluded S) : t.Inside S t :=
  ⟨ht, hs, SameShape.refl t, rfl, fun _ _ => rfl⟩

theorem Inside.trans (h : Inside S t s) (h' : Inside S s u) : Inside S t u :=
  ⟨h'.sound, h'.secluded, h.shape.trans h'.shape, h'.owners.trans h.owners,
    fun x hx => (h'.outside x hx).trans (h.outside x hx)⟩

theorem Inside.update (ht : t.Sound) (hs : t.Secluded S) (hid : id ∈ S) {f : Node α → Node α}
    (hf : ∀ n, SameLinks n (f n)) : Inside S t (t.update id f) := by
  have ho : (t.update id f).ownerOf = t.ownerOf := ownerOf_update fun n _ => (hf n).owner
  exact ⟨ht.update id fun n _ => hf n,
    hs.congr (fun _ => live_update) (childrenOf_update fun n _ => (hf n).children) ho,
    SameShape.update t id fun n => (hf n).children, ho,
    fun _ hx => find?_update_other t f fun he => hx (he ▸ hid)⟩

theorem Inside.sweep {γ : Type} {change : γ → Node α → Node α} {down : γ → Node α → γ}
    (ht : t.Sound) (hs : t.Secluded S) (hid : id ∈ S) (hf : ∀ x n, SameLinks n (change x n))
    (fuel : Nat) (x : γ) : Inside S t (t.sweep change down fuel x id) :=
  sweep_induct (fun _ h => h.secluded.closed)
    (fun _ x _ hid h => h.trans (Inside.update h.sound h.secluded hid (hf x))) fuel x hid
    (Inside.refl ht hs)

end Tree

namespace Pass

variable [Scalar α] {S : Set NodeId} {p q : Pass α} {id : NodeId}

theorem ownChildren_owned (hs : p.tree.Sound) (hl : p.tree.Live id)
    (ho : ∀ c ∈ p.tree.childrenOf id, p.tree.ownerOf c = some id) : p.ownChildren id = p := by
  rw [ownChildren, Edit.ownChildren_owned hs.arena.toBalanced hl
    fun c hc => by simp [Tree.owns, ho c hc]]

theorem Step.inside (h : Step S p q) (hs : p.tree.Sound) (hc : p.tree.Secluded S) :
    Tree.Inside S p.tree q.tree := by
  cases h with
  | update hid hf => exact Tree.Inside.update hs hc hid fun n => (hf n).links
  | own hid hl =>
    rw [ownChildren_owned hs hl (hc.owned _ hid)]
    exact Tree.Inside.refl hs hc
  | tell e =>
    exact ⟨hs.tell e, hc.congr (fun _ => Iff.rfl) rfl rfl, ⟨fun _ => Iff.rfl, rfl⟩, rfl,
      fun _ _ => rfl⟩
  | record | count => exact Tree.Inside.refl hs hc

theorem Moves.inside (h : Moves S p q) (hs : p.tree.Sound) (hc : p.tree.Secluded S) :
    Tree.Inside S p.tree q.tree := by
  induction h with
  | refl => exact Tree.Inside.refl hs hc
  | tail _ hstep ih => exact ih.trans (hstep.inside ih.sound ih.secluded)

end Pass

end Flexbox
