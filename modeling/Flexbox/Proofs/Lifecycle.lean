import Flexbox.Proofs.Edits
import Flexbox.Tree.Lifecycle

namespace Flexbox

variable {α : Type}

namespace Tree

variable {t s : Tree α} {p id : NodeId} {n : Node α}

theorem Sound.enter (h : t.Sound) (ho : n.owner = none) (hz : n.sharedCount = 0)
    (hn : n.children.Nodup) (hlive : ∀ c ∈ n.children, t.Live c)
    (hleaf : n.measure.isSome → n.children = []) (hk : n.config.onCopy = none) :
    ((t.insert n).2.share n.children).Sound := by
  have hbooks := h.arena.accounted.enter ho hz hn hlive
  have hfresh := not_live.mpr (h.arena.tidy.insert_fresh n)
  have hfind := fun x => find?_enter (n := n) h.arena.tidy hlive x
  have hch : ((t.insert n).2.share n.children).childrenOf =
      Function.update t.childrenOf (t.insert n).1 n.children := by
    funext x
    unfold childrenOf
    rw [hfind, Function.update_apply]
    split
    · rfl
    · cases t.find? x <;> rfl
  have howner : ∀ x, ((t.insert n).2.share n.children).ownerOf x = t.ownerOf x := by
    intro x
    unfold ownerOf
    rw [hfind]
    split
    · rename_i hx
      simp [ho, not_live.mp (hx ▸ hfresh)]
    · cases t.find? x <;> rfl
  refine ⟨Accounted.arena (by rwa [hch]) ?_ ?_, ?_, ?_⟩
  · intro q
    by_cases hq : q = (t.insert n).1
    · right
      intro c _ hc
      rw [owns, howner, hq, beq_iff_eq] at hc
      have hm := h.arena.mem_of_ownerOf hc
      rw [childrenOf_absent hfresh] at hm
      cases hm
    · refine (whole_congr (by rw [hch, Function.update_of_ne hq]) fun c _ => ?_).mpr
        (h.arena.whole q)
      rw [owns, owns, howner]
  · intro q m hm hs
    rw [hfind] at hm
    split at hm
    · cases hm
      exact hleaf hs
    · obtain ⟨m', hm', rfl⟩ := Option.map_eq_some_iff.mp hm
      have hl := h.arena.leaf hm'
      exact hl hs
  · rw [share_config, insert_config]
    exact h.hookless.1
  · intro q m hm
    rw [hfind] at hm
    split at hm
    · cases hm
      exact hk
    · obtain ⟨m', hm', rfl⟩ := Option.map_eq_some_iff.mp hm
      have hl := h.hookless.2 hm'
      exact hl

theorem Pending.remove (h : t.Pending p []) (hu : ∀ q, q ≠ p → p ∉ t.childrenOf q) :
    (t.erase p).Sound := by
  have hch : (t.erase p).childrenOf = Function.update t.childrenOf p [] := by
    funext x
    unfold childrenOf
    rw [find?_erase, Function.update_apply]
    split <;> rfl
  have hback : ∀ {x m}, (t.erase p).find? x = some m → t.find? x = some m := by
    intro x m hm
    rw [find?_erase] at hm
    split at hm
    · cases hm
    · exact hm
  have hbooks := h.books.remove p (by simp) fun q => by
    by_cases hq : q = p
    · simp [hq]
    · simpa [hq] using hu q hq
  refine ⟨Accounted.arena (by rwa [hch]) ?_ fun hm => h.leaf (hback hm), ?_,
    fun hm => h.hookless.2 (hback hm)⟩
  · intro q
    by_cases hq : q = p
    · left
      simp [hch, hq]
    · refine (whole_congr (by rw [hch, Function.update_of_ne hq]) fun c hc => ?_).mpr (h.whole q hq)
      have hcp : c ≠ p := fun he => hu q hq (he ▸ hc)
      simp [owns, ownerOf, find?_erase, hcp]
  · rw [erase_config]
    exact h.hookless.1

theorem Arena.owner_of_unshared (h : t.Arena) (hn : t.find? id = some n) (hs : n.sharedCount = 0)
    {q : NodeId} (hq : id ∈ t.childrenOf q) : n.owner = some q := by
  by_contra ho
  have hm : q ∈ t.sharersIn t.childrenOf id n.owner := h.accounted.mem_sharersIn.mpr ⟨hq, ho⟩
  have hcount := h.accounted.count hn
  rw [hs, eq_comm, Finset.card_eq_zero] at hcount
  rw [hcount] at hm
  cases hm

theorem Sound.detach (h : t.Sound) (hn : t.find? id = some n) (hs : n.sharedCount = 0)
    (ho : n.owner = some p) :
    ((t.update p fun o => { o with children := o.children.filter (· != id) }).unlist p id).Sound ∧
      ∀ q, id ∉ ((t.update p fun o =>
        { o with children := o.children.filter (· != id) }).unlist p id).childrenOf q := by
  obtain ⟨m, hm, hid⟩ := h.arena.owner hn ho
  have hnodup := h.arena.nodup hm
  have hpend := h.pending_list hm
  have hf : ∀ o, t.find? p = some o →
      ({ o with children := o.children.filter (· != id) } : Node α) =
        { o with children := m.children.erase id } := by
    intro o hom
    rw [hm] at hom
    cases hom
    rw [hnodup.erase_eq_filter]
  have hwrite := hpend.write _ hf (fun c hc => h.arena.live hm (List.mem_of_mem_erase hc))
    (hnodup.erase id) fun o hom hsome => by
      rw [hm] at hom
      cases hom
      simp [h.arena.leaf hm hsome]
  have hlist := childrenOf_write _ ⟨m, hm⟩ hf
  refine ⟨(hwrite.unlist hid).close (by rw [childrenOf_unlist, hlist]) (Or.inl fun c hc => ?_), ?_⟩
  · rw [childrenOf_unlist, hlist, hnodup.mem_erase_iff] at hc
    simp only [owns, ownerOf_unlist, hc.1, false_and, if_false]
    rw [ownerOf_update (by intros; rfl)]
    have hw := (h.arena.whole p).owned (by rwa [childrenOf_eq hm]) (owns_eq_true.mpr ⟨n, hn, ho⟩)
    exact hw c (by rw [childrenOf_eq hm]; exact hc.2)
  · intro q hq
    rw [childrenOf_unlist] at hq
    by_cases hqp : q = p
    · rw [hqp, hlist, hnodup.mem_erase_iff] at hq
      exact hq.1 rfl
    · have hq' : id ∈ t.childrenOf q := by
        simpa [childrenOf, find?_update_other t _ hqp] using hq
      have he := h.arena.owner_of_unshared hn hs hq'
      rw [ho] at he
      exact hqp (Option.some.inj he).symm

end Tree

namespace Edit

variable {t : Tree α} {p id : NodeId} {b : Tree α} {n : Node α}

/-- A node that is on no list has gone from the arena once its children are let go: `b` is the
arena from which it has not been taken yet. -/
theorem dissolve_run (hb : b.Sound) (hu : ∀ q, id ∉ b.childrenOf q) (ht : t.Tidy)
    (he : ∀ x, t.find? x = if x = id then none else b.find? x) (hc : t.config = b.config) :
    ∃ s, (forIn (b.childrenOf id) PUnit.unit fun child _ => do
        modify fun t => t.unlist id child
        pure (ForInStep.yield PUnit.unit) : Edit α PUnit).apply t = (.ok ⟨⟩, s) ∧ s.Sound := by
  let I := fun (rest : List NodeId) (s : Tree α) => ∃ b : Tree α, b.Pending id rest ∧
    (∀ q, id ∉ b.childrenOf q) ∧ s.Tidy ∧ s.config = b.config ∧
    ∀ x, s.find? x = if x = id then none else b.find? x
  have step : ∀ c rest s, I (c :: rest) s → ∃ u, (do
      modify fun t => t.unlist id c
      pure (ForInStep.yield PUnit.unit) : Edit α _).apply s = (.ok (.yield ⟨⟩), u) ∧
      I rest u := by
    rintro c rest s ⟨b, hb, hu, hs, hc, he⟩
    refine ⟨s.unlist id c, by simp [Except.map], b.unlist id c, ?_, ?_, hs.update c _, hc, ?_⟩
    · simpa using hb.unlist (c := c) (by simp)
    · rwa [Tree.childrenOf_unlist]
    · intro x
      rw [Tree.find?_unlist, Tree.find?_unlist, he]
      split <;> split <;> simp
  obtain ⟨s, hrun, b', hb', hu', hs, hc', he'⟩ := apply_forIn step (b.childrenOf id)
    ⟨b, hb.pending id, hu, ht, hc, he⟩
  refine ⟨s, hrun, (hb'.remove fun q _ => hu' q).congr hs (fun x => ?_) (by simpa using hc')⟩
  rw [he', Tree.find?_erase]

theorem takeOut_sound (hb : b.Sound) (hu : ∀ q, id ∉ b.childrenOf q) (ht : t.Tidy)
    (hother : ∀ x, x ≠ id → t.find? x = b.find? x) (hlist : t.childrenOf id = b.childrenOf id)
    (hc : t.config = b.config) (hn : t.find? id = some n) :
    ((do
      if let some n := (← get).find? id then
        modify fun t => t.erase id
        for child in n.children do
          modify fun t => t.unlist id child : Edit α Unit).apply t).2.Sound := by
  refine final_bind apply_get ?_
  rw [hn]
  obtain ⟨s, hrun, hs⟩ := dissolve_run hb hu (ht.erase id) (fun x => by
    rw [Tree.find?_erase]
    split
    · rfl
    · rename_i hx
      exact hother x hx) (by simpa using hc)
  rw [← hlist, Tree.childrenOf_eq hn] at hrun
  exact final_bind (apply_modify _) (final_bind hrun hs)

section Free

variable {P : Tree α → Prop} (id : NodeId)
  (hfilter : ∀ s p, P s →
    P (s.update p fun o => { o with children := o.children.filter (· != id) }))
  (herase : ∀ s, P s → P (s.erase id)) (hunlist : ∀ s c, P s → P (s.unlist id c)) (h : P t)

include hfilter herase hunlist h

theorem free_runs (hn : t.find? id = some n) (hs : n.isShared = false) : (free id).Runs t P := by
  have htake : ∀ s : Tree α, P s → ((do
      if let some n := (← get).find? id then
        modify fun t => t.erase id
        for child in n.children do
          modify fun t => t.unlist id child : Edit α Unit).Runs s P) := by
    intro s hs
    refine runs_bind apply_get ?_
    split
    · refine runs_bind (apply_modify _) (runs_forIn (I := fun _ => P) ?_ (herase s hs) ?_)
      · exact fun c _ u hu => ⟨u.unlist id c, by simp [Except.map], hunlist u c hu⟩
      · exact fun u hu => ⟨_, u, rfl, hu⟩
    · exact ⟨_, s, rfl, hs⟩
  refine runs_bind (apply_node hn) ?_
  dsimp only
  rw [if_neg (by simp [hs])]
  split
  · exact runs_bind (apply_modify _) (htake _ (hfilter t _ h))
  · exact htake t h

theorem free_ends : (free id).Ends t P := by
  by_cases hok : ∃ n, t.find? id = some n ∧ n.isShared = false
  · obtain ⟨n, hn, hs⟩ := hok
    exact (free_runs id hfilter herase hunlist h hn hs).ends
  · refine ends_node fun n hn => ?_
    rw [if_pos (by simpa using fun hs => hok ⟨n, hn, hs⟩)]
    exact ends_throw

theorem final_free : P ((free id).apply t).2 :=
  (free_ends id hfilter herase hunlist h).final h fun _ hs => hs

end Free

theorem free_atomic (id : NodeId) : (free id).Atomic t :=
  (free_ends (P := fun _ => True) id (fun _ _ _ => trivial) (fun _ _ => trivial)
    (fun _ _ _ => trivial) trivial).atomic

theorem free_upward {E : Set NodeId} (hu : t.Upward E) (id : NodeId) :
    ((free id).apply t).2.Upward E :=
  final_free id (fun _ _ hs => hs.update _ (by intros; rfl) fun _ _ _ ho => Or.inl ho)
    (fun _ hs => hs.erase id) (fun _ c hs => hs.unlist id c) hu

theorem free_sound (h : t.Sound) (id : NodeId) : ((free id).apply t).2.Sound := by
  refine final_node h fun n hn => ?_
  dsimp only
  split
  · exact final_throw h
  rename_i hshared
  have hs : n.sharedCount = 0 := by simpa [Node.isShared] using hshared
  split
  · rename_i p ho
    obtain ⟨hb, hu⟩ := h.detach hn hs ho
    refine final_bind (apply_modify _) ?_
    obtain ⟨m, hm⟩ : (t.update p fun o => { o with children := o.children.filter (· != id) }).Live
      id := Tree.live_update.mpr ⟨n, hn⟩
    refine takeOut_sound hb hu (h.arena.tidy.update p _) (fun x hx => ?_) ?_ rfl hm
    · rw [Tree.unlist, Tree.find?_update_other _ _ hx]
    · rw [Tree.childrenOf_unlist]
  · rename_i ho
    refine takeOut_sound h (fun q hq => ?_) h.arena.tidy (fun _ _ => rfl) rfl rfl hn
    exact ho q (h.arena.owner_of_unshared hn hs hq)

theorem free_mends (h : t.Sound) (id : NodeId) : (free id).Mends t :=
  (free_atomic id).ends ⟨free_sound h id, fun hu => free_upward hu id⟩

variable [Scalar α]

/-- `P` outlasts each step of taking a subtree down. -/
structure Outlasts (P : Tree α → Prop) : Prop where
  remove : ∀ {t root n c rest m}, P t → t.find? root = some n → n.children = c :: rest →
    t.find? c = some m → m.isOwnedBy root = true → P ((removeChild root c).apply t).2
  tell : ∀ {t}, P t → ∀ e, P (t.tell e)
  free : ∀ {t}, P t → ∀ id, P ((free id).apply t).2

section

variable {P : Tree α → Prop} (hP : Outlasts P)

include hP

theorem Outlasts.tellAll (h : P t) (es : List (Event α)) : P (es.foldl Tree.tell t) :=
  List.foldlRecOn es _ h fun _ h e _ => hP.tell h e

theorem Outlasts.releaseChildren {release : NodeId → Edit α Unit}
    (hr : ∀ t c, P t → P ((release c).apply t).2) (root : NodeId) (steps : Nat) (h : P t) :
    P ((releaseChildren release root steps).apply t).2 := by
  induction steps generalizing t with
  | zero => exact h
  | succ steps ih =>
    rw [Edit.releaseChildren]
    refine final_node h fun n hn => ?_
    split
    · exact h
    rename_i c rest hcs
    refine final_node h fun m hm => ?_
    split
    · exact h
    rename_i ho
    refine final_seq (hP.remove h hn hcs hm (by simpa using ho)) fun _ s hs => ?_
    refine final_node hs fun d _ => ?_
    split
    · exact final_seq (hr s c hs) fun _ u hu => ih hu
    · exact ih hs

theorem Outlasts.freeSubtree (cleanup : Node α → List (Event α)) (fuel : Nat) (root : NodeId)
    (h : P t) : P ((freeSubtree cleanup fuel root).apply t).2 := by
  induction fuel generalizing t root with
  | zero => exact h
  | succ fuel ih =>
    rw [Edit.freeSubtree]
    refine final_node h fun n _ => ?_
    refine final_seq (hP.releaseChildren (fun t c ht => ih c ht) root _ h) fun _ s hs => ?_
    refine final_node hs fun m _ => final_bind (apply_modify _) ?_
    exact hP.free (hP.tellAll hs _) root

end

theorem sound_outlasts : Outlasts (Tree.Sound (α := α)) where
  remove h _ _ _ _ := (removeChild_ends h _ _).sound h
  tell h := h.tell
  free h := free_sound h

theorem upward_outlasts {E : Set NodeId} : Outlasts (Tree.Upward (α := α) E) where
  remove hu hn hcs hm ho := by
    rw [removeOwned_run hn hcs hm ho (by simp [hcs]) ⟨_, hm⟩]
    exact (hu.cut _ _).soilUpwards_keeps _
  tell hu := hu.tell
  free hu := free_upward hu

theorem freeRecursiveWith_sound (h : t.Sound) (cleanup : Node α → List (Event α)) (root : NodeId)
    (spare : Nat) : ((freeRecursiveWith cleanup root spare).apply t).2.Sound :=
  final_bind apply_get (sound_outlasts.freeSubtree cleanup _ root h)

theorem freeRecursiveWith_upward {E : Set NodeId} (hu : t.Upward E)
    (cleanup : Node α → List (Event α)) (root : NodeId) (spare : Nat) :
    ((freeRecursiveWith cleanup root spare).apply t).2.Upward E :=
  final_bind apply_get (upward_outlasts.freeSubtree cleanup _ root hu)

theorem newNode_mends (h : t.Sound) {config : Option (Config α)}
    (hc : ∀ c, config = some c → c.onCopy = none) : (newNode config).Mends t := by
  refine Runs.ends ⟨_, _, rfl, h.enter (n := .new (config.getD t.config)) rfl rfl List.nodup_nil
    (by simp [Node.new]) (fun _ => rfl) ?_, fun hu => hu.enter h.arena rfl⟩
  cases config with
  | none => exact h.hookless.1
  | some c => exact hc c rfl

omit [Scalar α] in
theorem cloneNode_mends (h : t.Sound) (id : NodeId) : (cloneNode id).Mends t := by
  refine ends_node fun n hn => Runs.ends ⟨_, _, rfl, ?_, fun hu => (hu.enter h.arena rfl).share _⟩
  have hd := h.arena.nodup hn
  have hl := h.arena.leaf hn
  have hk := h.hookless.2 hn
  exact h.enter rfl rfl hd (fun c hc => h.arena.live hn hc) hl hk

theorem reset_mends (h : t.Sound) (id : NodeId) : (reset id).Mends t := by
  refine ends_node fun n hn => ?_
  dsimp only
  split
  · exact ends_throw
  rename_i hchildren
  split
  · exact ends_throw
  rename_i howner
  split
  · exact ends_throw
  rename_i hshared
  have hc : n.children = [] := by simpa using hchildren
  have ho : n.owner = none := by simpa using howner
  have hs : n.sharedCount = 0 := by simpa [Node.isShared] using hshared
  refine ends_change fun _ _ => ⟨h.update id fun m hm => ?_, fun hu => ?_⟩
  · obtain rfl : n = m := Option.some.inj (hn.symm.trans hm)
    exact ⟨hc.symm, ho.symm, hs.symm, fun _ => Or.inr hc, fun hk => hk⟩
  · intro c p hcp hdirty hclean
    have hcid : c ≠ id := by
      rintro rfl
      simp [Tree.ownerOf, hn, Node.new] at hcp
    rw [Tree.ownerOf, Tree.find?_update_other _ _ hcid] at hcp
    have hpid : p ≠ id := by
      rintro rfl
      have hmem := h.arena.mem_of_ownerOf hcp
      simp [Tree.childrenOf_eq hn, hc] at hmem
    rw [Tree.Dirty, Tree.markOf, Tree.find?_update_other _ _ hcid] at hdirty
    rw [Tree.Clean, Tree.markOf, Tree.find?_update_other _ _ hpid] at hclean
    exact hu c p hcp hdirty hclean

end Edit

end Flexbox
