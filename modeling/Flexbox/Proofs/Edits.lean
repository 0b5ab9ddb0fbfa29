import Flexbox.Proofs.Marks
import Flexbox.Tree.Children
import Flexbox.Tree.Attributes

namespace Flexbox

namespace Tree

variable {α : Type} {t s : Tree α} {id : NodeId} {f : Node α → Node α}

/-- `s` is sound, and a clean node that owns a dirty one in it did so in `t`, or is excepted. -/
structure Mended (t s : Tree α) : Prop where
  sound : s.Sound
  upward : ∀ {E}, t.Upward E → s.Upward E

theorem Mended.refl (h : t.Sound) : t.Mended t := ⟨h, fun hu => hu⟩

theorem Mended.update (h : t.Mended s)
    (hf : ∀ n, s.find? id = some n → SameLinks n (f n) ∧ (f n).isDirty = n.isDirty) :
    t.Mended (s.update id f) := by
  refine ⟨h.sound.update id fun n hn => (hf n hn).1, fun hu => ?_⟩
  refine (h.upward hu).update id (fun n hn => (hf n hn).2) fun n p hn hp => Or.inl ?_
  rwa [(hf n hn).1.owner] at hp

theorem Mended.soilUpwards (h : t.Mended s) (id : NodeId) : t.Mended (s.soilUpwards id) :=
  ⟨h.sound.soilUpwards id, fun hu => (h.upward hu).soilUpwards_keeps id⟩

/-- The tree without the link from `root` to a child that it owns. -/
def cut [Scalar α] (t : Tree α) (root c : NodeId) : Tree α :=
  (t.update root fun n => { n with children := n.children.erase c }).update c fun n =>
    { n with geometry := .initial, owner := none }

section Cut

variable [Scalar α] {root c x : NodeId}

theorem live_cut : (t.cut root c).Live x ↔ t.Live x :=
  live_update.trans live_update

theorem find?_cut (hr : x ≠ root) (hc : x ≠ c) : (t.cut root c).find? x = t.find? x := by
  rw [cut, find?_update_other _ _ hc, find?_update_other _ _ hr]

theorem childrenOf_cut (x : NodeId) : (t.cut root c).childrenOf x =
    if x = root then (t.childrenOf root).erase c else t.childrenOf x := by
  rw [cut, childrenOf_update (by intros; rfl), childrenOf, find?_update]
  split
  · rename_i hx
    rw [hx, childrenOf]
    cases t.find? root <;> simp
  · rfl

theorem ownerOf_cut (x : NodeId) : (t.cut root c).ownerOf x =
    if x = c then none else t.ownerOf x := by
  rw [cut, ownerOf, find?_update]
  split
  · cases (t.update root fun n => { n with children := n.children.erase c }).find? x <;> rfl
  · exact congrFun (ownerOf_update (by intros; rfl)) x

theorem Upward.cut {E : Set NodeId} (hu : t.Upward E) (root c : NodeId) :
    (t.cut root c).Upward E := by
  have hlist : (t.update root fun n => { n with children := n.children.erase c }).Upward E :=
    hu.update root (by intros; rfl) fun _ _ _ ho => Or.inl ho
  exact hlist.update c (by intros; rfl) fun _ _ _ ho => by simp at ho

end Cut

end Tree

namespace Edit

variable {α β : Type} {t : Tree α} {p c : NodeId} {cs : List NodeId} {f : Node α → Node α}
  {n : Node α} {rest : List NodeId} {s : Tree α} {id : NodeId} {i : Nat} {e : Edit α β}
  {E : Set NodeId} {P : Tree α → Prop}

def Mends (e : Edit α β) (t : Tree α) : Prop := e.Ends t t.Mended

theorem Mends.ends (he : e.Mends t) : e.Ends t Tree.Sound := he.imp fun _ => Tree.Mended.sound

theorem Mends.upward (he : e.Mends t) (hu : t.Upward E) : (e.apply t).2.Upward E :=
  he.final hu fun _ hs => hs.upward hu

theorem Ends.sound (he : e.Ends t Tree.Sound) (h : t.Sound) : (e.apply t).2.Sound :=
  he.final h fun _ hs => hs

theorem apply_propagateDirty (h : t.Live id) :
    (propagateDirty id).apply t = (.ok ⟨⟩, t.soilUpwards id) := by
  obtain ⟨n, hn⟩ := h
  simp [propagateDirty, apply_bind, apply_node hn]

theorem runs_propagateDirty (hl : t.Live id) (h : P (t.soilUpwards id)) :
    (propagateDirty id).Runs t P :=
  ⟨_, _, apply_propagateDirty hl, h⟩

theorem propagateDirty_mends (h : t.Sound) (id : NodeId) : (propagateDirty id).Mends t :=
  ends_node fun _ _ => Runs.ends ⟨_, _, rfl, (Tree.Mended.refl h).soilUpwards id⟩

theorem change_propagate_ends (hP : t.Live id → P ((t.update id f).soilUpwards id)) :
    (do change id f; propagateDirty id : Edit α Unit).Ends t P := by
  cases hn : t.find? id with
  | none => exact Or.inl ⟨_, by rw [apply_bind, apply_change_none hn]⟩
  | some n =>
    exact (runs_bind (apply_change hn f)
      (runs_propagateDirty (Tree.live_update.mpr ⟨n, hn⟩) (hP ⟨n, hn⟩))).ends

theorem change_propagate_mends (h : t.Sound)
    (hf : ∀ n, t.find? id = some n → Tree.SameLinks n (f n) ∧ (f n).isDirty = n.isDirty) :
    (do change id f; propagateDirty id : Edit α Unit).Mends t :=
  change_propagate_ends fun _ => ((Tree.Mended.refl h).update hf).soilUpwards id

theorem set_perm_erase {k : NodeId} (hc : cs[i]? = some c) (hk : k ∉ cs) :
    (cs.set i k).Perm ((k :: cs).erase c) := by
  obtain ⟨hi, rfl⟩ := List.getElem?_eq_some_iff.mp hc
  have hne : k ≠ cs[i] := fun he => hk (he ▸ List.getElem_mem hi)
  rw [List.erase_cons_tail (by simpa using hne)]
  exact (List.set_perm_cons_eraseIdx hi k).trans ((List.erase_getElem hi).symm.cons k)

theorem copy_child_sound (h : t.Sound) {d : Node α} (hn : t.find? p = some n)
    (hc : n.children[i]? = some c) (hd : t.find? c = some d) (ho : ∀ c ∈ n.children, t.owns p c) :
    (((t.withCopy p d).update p fun n =>
      { n with children := n.children.set i (t.copyName p d) }).unlist p c).Sound := by
  have htidy := h.arena.tidy
  have hmem : c ∈ n.children := List.mem_of_getElem? hc
  have hlive : ∀ x ∈ d.children, t.Live x := fun x hx => h.arena.live hd hx
  have hfresh := Tree.copyName_fresh htidy p d
  have hkc : t.copyName p d ∉ n.children := fun hm => hfresh (h.arena.live hn hm)
  have hfind := fun x => Tree.find?_withCopy (p := p) htidy hlive x
  have hrec : t.Recounts (t.withCopy p d) := Tree.recounts_withCopy htidy hlive
  obtain ⟨j, hp⟩ := hrec p n hn
  have hperm := set_perm_erase hc hkc
  have hcopy := (h.pending_list hn).copy ⟨n, hn⟩ hd
  have hnodup : (n.children.set i (t.copyName p d)).Nodup := by
    refine hperm.nodup_iff.mpr (List.Nodup.erase c ?_)
    exact List.nodup_cons.mpr ⟨hkc, h.arena.nodup hn⟩
  have hsub : ∀ x ∈ n.children.set i (t.copyName p d), x ∈ t.copyName p d :: n.children :=
    fun x hx => List.mem_of_mem_erase (hperm.mem_iff.mp hx)
  have hwrite := hcopy.write (n.children.set i (t.copyName p d))
    (f := fun n => { n with children := n.children.set i (t.copyName p d) })
    (Tree.found hp rfl) (fun x hx => hcopy.listed_live (hsub x hx)) hnodup
    (Tree.found hp fun hs => by simp [h.arena.leaf hn hs] at hmem)
  have hlist := Tree.childrenOf_write (n.children.set i (t.copyName p d))
    (f := fun n => { n with children := n.children.set i (t.copyName p d) }) ⟨_, hp⟩
    (Tree.found hp rfl)
  refine (hwrite.unlist (c := c) (by simp [hmem])).close ?_ (Or.inl fun x hx => ?_)
  · rw [Tree.childrenOf_unlist, hlist]
    exact hperm
  · rw [Tree.childrenOf_unlist, hlist] at hx
    have hxc : x ≠ c := by
      rintro rfl
      have hcs : (t.copyName p d :: n.children).Nodup := List.nodup_cons.mpr ⟨hkc, h.arena.nodup hn⟩
      exact (hcs.mem_erase_iff.mp (hperm.mem_iff.mp hx)).1 rfl
    have howner : (t.withCopy p d).ownerOf x = some p := by
      rcases List.mem_cons.mp (hsub x hx) with rfl | hx
      · rw [Tree.ownerOf_eq (by rw [hfind, if_pos rfl])]
      · rw [hrec.ownerOf (h.arena.live hn hx)]
        simpa [Tree.owns] using ho x hx
    have hkeep : ((t.withCopy p d).update p fun n =>
        { n with children := n.children.set i (t.copyName p d) }).ownerOf x = some p := by
      rw [Tree.ownerOf_update (by intros; rfl), howner]
    simp [Tree.owns, Tree.ownerOf_unlist, hxc, hkeep]

theorem letGo_balancing (h : s.Balancing p (c :: rest)) (hc : ∀ n, (f n).children = n.children)
    (ho : ∀ n, (f n).owner = n.owner) (hs : ∀ n, (f n).sharedCount = n.sharedCount) :
    ((s.update c f).unlist p c).Balancing p rest ∧
      ((s.update c f).unlist p c).childrenOf = s.childrenOf ∧
      ∀ x, ((s.update c f).unlist p c).ownerOf x =
        if x = c ∧ s.ownerOf x = some p then none else s.ownerOf x := by
  refine ⟨?_, ?_, fun x => ?_⟩
  · simpa using (h.update c (fun n _ => hc n) (fun n _ => ho n) fun n _ => hs n).unlist (c := c)
      (by simp)
  · rw [Tree.childrenOf_unlist, Tree.childrenOf_update fun n _ => hc n]
  · rw [Tree.ownerOf_unlist, Tree.ownerOf_update fun n _ => ho n]

theorem letGo_step (h : s.Pending p (c :: rest)) (hf : ∀ n, Tree.SameLinks n (f n))
    (hd : ∀ n, (f n).isDirty = n.isDirty) :
    ((s.update c f).unlist p c).Pending p rest ∧
      (∀ {E}, s.Upward E → ((s.update c f).unlist p c).Upward E) ∧
      ((s.update c f).unlist p c).childrenOf = s.childrenOf ∧
      ∀ x, ((s.update c f).unlist p c).ownerOf x =
        if x = c ∧ s.ownerOf x = some p then none else s.ownerOf x := by
  refine ⟨?_, fun hu => ?_, (letGo_balancing h.toBalancing (fun n => (hf n).children)
    (fun n => (hf n).owner) fun n => (hf n).count).2⟩
  · simpa using (h.update c fun n _ => hf n).unlist (c := c) (by simp)
  · refine Tree.Upward.unlist (hu.update c (fun n _ => hd n) fun n q _ hq => Or.inl ?_) p c
    rwa [(hf n).owner] at hq

variable [Scalar α] {new : List NodeId}

theorem ownChildren_ends (h : t.Sound) (id : NodeId) : (ownChildren id).Ends t Tree.Sound := by
  by_cases hp : t.Live id
  · obtain ⟨s, hrun, hs, -⟩ := ownChildren_run h hp
    exact Runs.ends ⟨_, s, hrun, hs⟩
  · exact ends_node fun n hn => absurd ⟨n, hn⟩ hp

theorem insertChild_mends (h : t.Sound) (p c : NodeId) (i : Nat) :
    (insertChild p c i).Mends t := by
  refine ends_node fun d hd => ?_
  dsimp only
  split
  · exact ends_throw
  rename_i hdo
  have hdo : d.owner = none := by
    cases ho : d.owner with
    | none => rfl
    | some o => exact absurd ho (hdo o)
  refine ends_node fun n hn => ?_
  split
  · exact ends_throw
  rename_i hmeasure
  split
  · exact ends_throw
  rename_i hlen
  obtain ⟨s, hrun, hs, hpriv⟩ := ownChildren_run h ⟨n, hn⟩
  obtain ⟨ks, j, hp, hcopies⟩ := hpriv.self n hn
  have hlist := Tree.childrenOf_eq hp
  have howner : s.ownerOf c = none := by
    rw [hpriv.ownerOf ⟨d, hd⟩, Tree.ownerOf_eq hd, hdo]
  -- The list is all owned by now, and the new child has no owner.
  have hc : c ∉ ks := by
    intro hm
    have ho := hpriv.owned c (by rwa [hlist])
    simp [Tree.owns, howner] at ho
  have hlive : s.Live c := hpriv.live ⟨d, hd⟩
  have hperm : (ks.insertIdx i c).Perm (c :: ks) :=
    List.perm_insertIdx c ks (by rw [← hcopies.length_eq]; omega)
  have hpend : s.Pending p ks := hs.pending_list hp
  have hmem : ∀ x ∈ ks.insertIdx i c, s.Live x := by
    intro x hx
    rcases List.mem_cons.mp (hperm.mem_iff.mp hx) with rfl | hx
    · exact hlive
    · exact hpend.listed_live hx
  have hks : ks.Nodup := hs.arena.nodup hp
  have hwrite := hpend.write (ks.insertIdx i c)
    (f := fun n => { n with children := n.children.insertIdx i c })
    (Tree.found hp rfl) hmem
    (hperm.nodup_iff.mpr (List.nodup_cons.mpr ⟨hc, hks⟩))
    (Tree.found hp fun hsome => absurd hsome hmeasure)
  have hlist' := Tree.childrenOf_write (ks.insertIdx i c)
    (f := fun n => { n with children := n.children.insertIdx i c }) ⟨_, hp⟩
    (Tree.found hp rfl)
  have hupward : ∀ {E}, t.Upward E →
      (s.update p fun n => { n with children := n.children.insertIdx i c }).Upward ({p} ∪ E) := by
    intro E hu
    have hus := hpriv.upward h.arena (hu.mono Set.subset_union_right) (Or.inl rfl : p ∈ {p} ∪ E)
    exact hus.update p (by intros; rfl) fun _ _ _ ho => Or.inl ho
  refine (runs_bind hrun (runs_bind (apply_change hp _) ?_)).ends
  generalize hu : s.update p (fun n => { n with children := n.children.insertIdx i c }) = u
    at hwrite hlist' hupward ⊢
  have huo : u.ownerOf = s.ownerOf := by
    rw [← hu]
    exact Tree.ownerOf_update (by intros; rfl)
  have hul : ∀ x, u.Live x ↔ s.Live x := fun x => by rw [← hu, Tree.live_update]
  obtain ⟨m, hm⟩ := (hul c).mpr hlive
  refine runs_bind (apply_change hm _) (runs_propagateDirty ?_ ⟨Tree.Sound.soilUpwards ?_ p, ?_⟩)
  · exact Tree.live_update.mpr ((hul p).mpr ⟨_, hp⟩)
  swap
  · exact fun hu => ((hupward hu).update c (by intros; rfl)
      fun _ q _ ho => Or.inr (Or.inl (Option.some.inj ho).symm)).soilUpwards
  have hadopt := hwrite.adopt (c := c) (f := fun n => { n with owner := some p })
    ((hul p).mpr ⟨_, hp⟩) ⟨m, hm⟩ (by rw [huo, howner]) hc fun _ => rfl
  have hch : (u.update c fun n => { n with owner := some p }).childrenOf p = ks.insertIdx i c := by
    rw [Tree.childrenOf_update (by intros; rfl), hlist']
  refine hadopt.close (by rw [hch]; exact hperm) (Or.inl fun x hx => ?_)
  rw [hch] at hx
  simp only [Tree.owns, Tree.ownerOf_adopt ⟨m, hm⟩ (fun _ => rfl), beq_iff_eq]
  split
  · rfl
  · rename_i hxc
    have hxk : x ∈ ks := (List.mem_cons.mp (hperm.mem_iff.mp hx)).resolve_left hxc
    rw [huo]
    simpa [Tree.owns] using hpriv.owned x (by rwa [hlist])

theorem addChild_mends (h : t.Sound) (p c : NodeId) : (addChild p c).Mends t :=
  ends_node fun _ _ => insertChild_mends h p c _

theorem copyOthers_run (cs : List NodeId) {done : List NodeId} (c : NodeId) (i : Nat)
    (h : t.Pending p (cs ++ done)) (hp : t.Live p) (hcs : ∀ d ∈ cs, t.owns p d = false)
    (hd : ∀ d ∈ done, t.owns p d = true) :
    ∃ ks s, (copyOthers p c none i cs).apply t = (.ok ks, s) ∧ s.Pending p (done ++ ks) ∧
      s.Live p ∧ s.childrenOf p = t.childrenOf p ∧ (∀ d ∈ done ++ ks, s.owns p d = true) ∧
      (t.Upward {p} → s.Upward {p}) ∧ (c ∈ cs ∨ t.Dirty p → s.Dirty p) := by
  induction cs generalizing t done i with
  | nil => exact ⟨[], t, rfl, by simpa using h, hp, rfl, by simpa using hd, fun hu => hu, by simp⟩
  | cons old cs ih =>
    have hlive : ∀ d ∈ old :: cs ++ done, t.Live d := fun d hd => h.listed_live hd
    obtain ⟨n, hn⟩ := hlive old (by simp)
    have hold := hcs old (by simp)
    by_cases he : old = c
    · -- The child that goes: its owner becomes dirty and lets it go.
      obtain ⟨hstep, hown, hchildren, hsp⟩ := h.drop_step hp hold
      have hmark : ((t.soilUpwards p).unlist p old).Dirty p := by
        rw [Tree.Dirty, Tree.unlist, Tree.markOf_update (by intros; split <;> rfl)]
        exact Tree.dirty_soilUpwards hp
      obtain ⟨ks, s, hrun, hpend, hsp, hch, hsd, hus, hdirty⟩ := ih i hstep hsp
        (fun d hd => by rw [hown, hcs d (by simp [hd])]) (fun d hm => by rw [hown, hd d hm])
      rw [hchildren] at hch
      refine ⟨ks, s, ?_, hpend, hsp, hch, hsd, fun hu => hus ?_, fun _ => hdirty (Or.inr hmark)⟩
      · simp [copyOthers, he, apply_bind, apply_propagateDirty hp, ← hrun]
      · exact (hu.soilUpwards_keeps p).unlist p old
    · obtain ⟨hstep, hrec, hmade, hnew⟩ := h.copy_step hp hn hold
      obtain ⟨ks, s, hrun, hpend, hsp, hch, hsd, hus, hdirty⟩ := ih (i + 1) hstep (hrec.live hp)
        (fun d hd => by rw [hrec.owns (hlive d (by simp [hd])), hcs d (by simp [hd])])
        (fun d hm => by
          rcases List.mem_append.mp hm with hm | hm
          · rw [hrec.owns (hlive d (by simp [hm])), hd d hm]
          · rwa [List.mem_singleton.mp hm])
      rw [hrec.childrenOf hp] at hch
      refine ⟨t.copyName p n :: ks, s, ?_, by simpa using hpend, hsp, hch, by simpa using hsd,
        fun hu => hus (hu.grow_owned (fun _ _ ho => h.owner_live ho)
          (fun _ hx => ⟨hrec.markOf hx, hrec.ownerOf hx⟩)
          (fun x hl hx => by rwa [(hnew x hl).resolve_left hx]) rfl), fun hor => hdirty ?_⟩
      · simp [copyOthers, he, apply_bind, apply_copyFor i hn, hrun, Except.map]
      · rcases hor with hc | hc
        · exact Or.inl ((List.mem_cons.mp hc).resolve_left (Ne.symm he))
        · right
          rwa [Tree.Dirty, hrec.markOf hp]

theorem cut_sound (h : t.Sound) (hn : t.find? p = some n) (hc : c ∈ n.children)
    (ho : ∀ d ∈ n.children, t.owns p d) :
    (t.cut p c).Sound := by
  have hpend := h.pending_list hn
  have hnodup := h.arena.nodup hn
  have hwrite := hpend.write (n.children.erase c)
    (f := fun n => { n with children := n.children.erase c })
    (Tree.found hn rfl)
    (fun d hd => h.arena.live hn (List.mem_of_mem_erase hd)) (hnodup.erase c)
    (Tree.found hn fun hs => by simp [h.arena.leaf hn hs])
  have hlist := Tree.childrenOf_write (n.children.erase c)
    (f := fun n => { n with children := n.children.erase c }) ⟨n, hn⟩
    (Tree.found hn rfl)
  rw [Tree.cut]
  have howner : (t.update p fun n => { n with children := n.children.erase c }).ownerOf =
      t.ownerOf := Tree.ownerOf_update (by intros; rfl)
  generalize t.update p (fun n => { n with children := n.children.erase c }) = s
    at hwrite hlist howner ⊢
  have hsc : s.ownerOf c = some p := by
    rw [howner]
    simpa [Tree.owns] using ho c hc
  -- Forgetting the owner is what letting go of an owned child comes to.
  have he : (s.update c fun n => { n with geometry := .initial, owner := none }) =
      (s.unlist p c).update c fun n => { n with geometry := .initial } := by
    rw [Tree.unlist, Tree.update_update]
    refine Tree.update_congr fun m hm => ?_
    rw [Tree.ownerOf_eq hm] at hsc
    simp [Node.isOwnedBy, hsc]
  rw [he]
  refine Tree.Sound.update ?_ c fun _ _ => ⟨rfl, rfl, rfl, Or.inl, fun hk => hk⟩
  refine (hwrite.unlist hc).close (by rw [Tree.childrenOf_unlist, hlist]) (Or.inl fun d hd => ?_)
  rw [Tree.childrenOf_unlist, hlist, hnodup.mem_erase_iff] at hd
  simp only [Tree.owns, Tree.ownerOf_unlist, hd.1, false_and, if_false, howner]
  exact ho d hd.2

theorem removeOwned_run {first : NodeId} {n m : Node α} (hn : t.find? p = some n)
    (hcs : n.children = first :: rest) (hm : t.find? first = some m) (ho : m.isOwnedBy p = true)
    (hc : c ∈ n.children) (hl : t.Live c) :
    (removeChild p c).apply t = (.ok ⟨⟩, (t.cut p c).soilUpwards p) := by
  obtain ⟨k, hk⟩ : (t.update p fun n => { n with children := n.children.erase c }).Live c :=
    Tree.live_update.mpr hl
  have hrl : (t.cut p c).Live p := Tree.live_cut.mpr ⟨n, hn⟩
  have hcontains : (first :: rest).contains c = true := by
    rw [← hcs]
    simpa using hc
  simp only [removeChild, apply_bind, apply_node hn, hcs, apply_node hm, ho, hcontains, if_true,
    apply_change hn, apply_change hk]
  exact apply_propagateDirty hrl

/-- Without children of others nothing is copied. Else the node comes to list copies of all but the
one that goes, and is marked only if there is one. -/
theorem removeChild_cases (h : t.Sound) (hn : t.find? p = some n) (c : NodeId) :
    ((∀ d ∈ n.children, t.owns p d = true) ∧ ∃ s, (removeChild p c).apply t = (.ok ⟨⟩, s) ∧
      (s = t ∨ c ∈ n.children ∧ s = (t.cut p c).soilUpwards p)) ∨
    ∃ first rest m ks, ∃ s : Tree α, n.children = first :: rest ∧ t.find? first = some m ∧
      m.isOwnedBy p = false ∧ s.Pending p ks ∧ s.Live p ∧ s.childrenOf p = t.childrenOf p ∧
      (∀ d ∈ ks, s.owns p d = true) ∧ (t.Upward {p} → s.Upward {p}) ∧
      (c ∈ n.children → s.Dirty p) ∧
      (removeChild p c).apply t = (.ok ⟨⟩, s.update p fun n => { n with children := ks }) := by
  have hlist := Tree.childrenOf_eq hn
  cases hcs : n.children with
  | nil =>
    exact Or.inl ⟨by simp, t, by simp [removeChild, apply_bind, apply_node hn, hcs], Or.inl rfl⟩
  | cons first rest =>
    rw [← hcs]
    have hfirst : first ∈ t.childrenOf p := by simp [hlist, hcs]
    obtain ⟨m, hm⟩ := h.arena.accounted.live hfirst
    cases ho : m.isOwnedBy p with
    | true =>
      refine Or.inl ⟨?_, ?_⟩
      · rw [← hlist]
        exact (h.arena.whole p).owned hfirst (by rw [Tree.owns_eq hm, ho])
      · by_cases hc : c ∈ n.children
        · exact ⟨_, removeOwned_run hn hcs hm ho hc (h.arena.live hn hc), Or.inr ⟨hc, rfl⟩⟩
        · rw [hcs] at hc
          exact ⟨t, by simp [removeChild, apply_bind, apply_node hn, hcs, apply_node hm, ho, hc],
            Or.inl rfl⟩
    | false =>
      have hnone : ∀ d ∈ n.children, t.owns p d = false := by
        rw [← hlist]
        exact (h.arena.whole p).unowned hfirst (by rw [Tree.owns_eq hm, ho])
      have hpend : t.Pending p (n.children ++ []) := by simpa [hlist] using h.pending p
      obtain ⟨ks, s, hrun, hs, ⟨k, hk⟩, hch, hso, hus, hdirty⟩ :=
        copyOthers_run n.children c 0 hpend ⟨n, hn⟩ hnone (by simp)
      refine Or.inr ⟨first, rest, m, ks, s, hcs, hm, ho, hs, ⟨k, hk⟩, hch, hso, hus,
        fun hc => hdirty (Or.inl hc), ?_⟩
      rw [hcs] at hrun
      simp [removeChild, apply_bind, apply_node hn, hcs, apply_node hm, ho, h.hookless.2 hn, hrun,
        apply_change hk]

theorem removeChild_ends (h : t.Sound) (p c : NodeId) : (removeChild p c).Ends t Tree.Sound := by
  cases hn : t.find? p with
  | none => exact ends_node fun m hm => by rw [hn] at hm; cases hm
  | some n =>
    rcases removeChild_cases h hn c with ⟨howned, s, hrun, hs⟩ |
      ⟨first, rest, m, ks, s, hcs, -, -, hs, ⟨k, hk⟩, hch, hso, -, -, hrun⟩
    · refine Runs.ends ⟨_, s, hrun, ?_⟩
      rcases hs with rfl | ⟨hc, rfl⟩
      · exact h
      · exact (cut_sound h hn hc howned).soilUpwards p
    · have hwrite := hs.write ks
        (fun _ _ => rfl) (fun d hd => hs.listed_live hd) (by simpa using hs.books.nodup p)
        (fun m hm hsome => by
          rw [Tree.childrenOf_eq hm, hs.leaf hm hsome, Tree.childrenOf_eq hn, hcs] at hch
          cases hch)
      have hl := Tree.childrenOf_write ks ⟨k, hk⟩ (fun _ _ => rfl)
      refine Runs.ends ⟨_, _, hrun, hwrite.close (by rw [hl]) (Or.inl fun d hd => ?_)⟩
      rw [Tree.owns_update (by intros; rfl)]
      exact hso d (by rwa [hl] at hd)

theorem removeAllChildren_mends (h : t.Sound) (p : NodeId) : (removeAllChildren p).Mends t := by
  refine ends_node fun n hn => (runs_bind (apply_change hn _) ?_).ends
  have hpend := h.pending_list hn
  have hwrite := hpend.write [] (fun _ _ => rfl) (by simp) List.nodup_nil (fun _ _ _ => rfl)
  have hlist := Tree.childrenOf_write [] ⟨n, hn⟩ (fun _ _ => rfl)
  have hlive : ∀ x, (t.update p fun n => { n with children := [] }).Live x ↔ t.Live x :=
    fun x => Tree.live_update
  have hupward : ∀ {E}, t.Upward E → (t.update p fun n => { n with children := [] }).Upward E :=
    fun hu => hu.update p (by intros; rfl) fun _ _ _ ho => Or.inl ho
  generalize t.update p _ = s at hwrite hlist hlive hupward ⊢
  cases hcs : n.children with
  | nil =>
    rw [hcs] at hwrite
    exact ⟨_, s, rfl, hwrite.close (by rw [hlist]) (by simp [Tree.Whole, hlist]), hupward⟩
  | cons first rest =>
    obtain ⟨m, hm⟩ := (hlive first).mpr (h.arena.live hn (by simp [hcs]))
    refine runs_bind (apply_node hm) ?_
    rw [hcs] at hwrite
    refine runs_forIn (I := fun rest u => u.Pending p rest ∧ u.childrenOf p = [] ∧ u.Live p ∧
      ∀ {E}, t.Upward E → u.Upward E) ?_ ⟨hwrite, hlist, (hlive p).mpr ⟨n, hn⟩, hupward⟩ ?_
    · rintro c rest u ⟨hu, hup, hul, huu⟩
      obtain ⟨d, hd⟩ := hu.listed_live (c := c) (by simp)
      by_cases ho : m.isOwnedBy p
      · obtain ⟨hv, hvu, hvc, -⟩ := letGo_step (f := fun n => { n with geometry := .initial }) hu
          (fun _ => ⟨rfl, rfl, rfl, Or.inl, fun hk => hk⟩) fun _ => rfl
        refine ⟨_, ?_, hv, by rw [hvc, hup], Tree.live_update.mpr (Tree.live_update.mpr hul),
          fun h => hvu (huu h)⟩
        simp [ho, apply_bind, apply_change hd, Except.map]
      · refine ⟨u.unlist p c, ?_, by simpa using hu.unlist (c := c) (by simp),
          by rw [Tree.childrenOf_unlist, hup], Tree.live_update.mpr hul,
          fun h => (huu h).unlist p c⟩
        simp [ho, Except.map]
    · rintro u ⟨hu, hup, hul, huu⟩
      refine runs_propagateDirty hul (Tree.Mended.soilUpwards ⟨?_, huu⟩ p)
      exact hu.close (by rw [hup]) (by simp [Tree.Whole, hup])

omit [Scalar α] in
theorem checkChildren_run (cs seen : List NodeId) :
    ((checkChildren p seen cs).apply t).2 = t ∧
      (((checkChildren p seen cs).apply t).1 = .ok ⟨⟩ →
        (∀ c ∈ cs, c ∉ seen ∧ t.Live c ∧ (t.ownerOf c = none ∨ t.ownerOf c = some p)) ∧
          cs.Nodup) := by
  induction cs generalizing seen with
  | nil => simp [checkChildren]
  | cons c cs ih =>
    obtain ⟨hend, hok⟩ := ih (c :: seen)
    rw [checkChildren]
    by_cases hs : c ∈ seen
    · simp [hs]
    cases hc : t.find? c with
    | none => simp [hs, apply_bind, apply_node_none hc]
    | some n =>
      by_cases ho : n.owner = none ∨ n.owner = some p
      · have hrun : (checkChildren p seen (c :: cs)).apply t =
            (checkChildren p (c :: seen) cs).apply t := by
          rcases ho with ho | ho <;> simp [checkChildren, hs, apply_bind, apply_node hc, ho]
        rw [checkChildren] at hrun
        rw [hrun]
        refine ⟨hend, fun h => ?_⟩
        obtain ⟨hall, hnd⟩ := hok h
        refine ⟨?_, List.nodup_cons.mpr ⟨fun hm => (hall c hm).1 (by simp), hnd⟩⟩
        intro d hd
        rcases List.mem_cons.mp hd with rfl | hd
        · exact ⟨hs, ⟨n, hc⟩, by rwa [Tree.ownerOf_eq hc]⟩
        · obtain ⟨hns, hl, hdo⟩ := hall d hd
          exact ⟨fun hm => hns (by simp [hm]), hl, hdo⟩
      · obtain ⟨o, hno⟩ : ∃ o, n.owner = some o := by
          cases hno : n.owner with
          | none => exact absurd (Or.inl hno) ho
          | some o => exact ⟨o, rfl⟩
        have hop : o ≠ p := fun he => ho (Or.inr (he ▸ hno))
        simp [hs, apply_bind, apply_node hc, hno, hop]

theorem clearOld_run (new : List NodeId) {old : List NodeId} (h : t.Pending p old)
    (hnew : ∀ c ∈ new, t.ownerOf c = none ∨ (t.ownerOf c = some p ∧ c ∈ old)) :
    ∃ s, (forIn old PUnit.unit fun child _ => do
        if !new.contains child then forgetOwned p child
        modify fun t => t.unlist p child
        pure (ForInStep.yield PUnit.unit) : Edit α PUnit).apply t = (.ok ⟨⟩, s) ∧
      s.Pending p [] ∧ (∀ {E}, t.Upward E → s.Upward E) ∧ s.childrenOf = t.childrenOf ∧
      (∀ x, (s.find? x).map Node.measure = (t.find? x).map Node.measure) ∧
      ∀ c ∈ new, s.ownerOf c = none := by
  let I := fun (rest : List NodeId) (s : Tree α) => s.Pending p rest ∧
    (∀ {E}, t.Upward E → s.Upward E) ∧ s.childrenOf = t.childrenOf ∧
    (∀ x, (s.find? x).map Node.measure = (t.find? x).map Node.measure) ∧
    ∀ c ∈ new, s.ownerOf c = none ∨ (s.ownerOf c = some p ∧ c ∈ rest)
  have step : ∀ c rest s, I (c :: rest) s → ∃ u, (do
      if !new.contains c then forgetOwned p c
      modify fun t => t.unlist p c
      pure (ForInStep.yield PUnit.unit) : Edit α _).apply s = (.ok (.yield ⟨⟩), u) ∧
      I rest u := by
    rintro c rest s ⟨hs, hupward, hc, hl, ho⟩
    let f := fun n : Node α =>
      if !new.contains c ∧ n.isOwnedBy p then { n with geometry := .initial } else n
    have hf : ∀ n, Tree.SameLinks n (f n) := fun n => by
      unfold f
      split <;> exact ⟨rfl, rfl, rfl, Or.inl, fun hk => hk⟩
    have hd : ∀ n, (f n).isDirty = n.isDirty := fun n => by
      unfold f
      split <;> rfl
    obtain ⟨hu, huu, huc, huo⟩ := letGo_step hs hf hd
    refine ⟨_, ?_, hu, fun h => huu (hupward h), by rw [huc, hc], fun x => ?_, fun x hx => ?_⟩
    · by_cases hm : c ∈ new
      · have he : s.update c f = s := Tree.update_same fun n _ => by simp [f, hm]
        simp [hm, he, Except.map]
      · simp [hm, forgetOwned, f, Except.map, apply_bind]
    · rw [Tree.unlist, Tree.map_find?_update, Tree.map_find?_update, hl]
      · intro n _
        unfold f
        split <;> rfl
      · intro n _
        split <;> rfl
    · rw [huo]
      rcases ho x hx with hn | ⟨hn, hm⟩
      · simp [hn]
      · rcases List.mem_cons.mp hm with rfl | hm
        · simp [hn]
        · by_cases hxc : x = c
          · simp [hxc, hxc ▸ hn]
          · simp [hxc, hn, hm]
  obtain ⟨s, hrun, hs, hu, hc, hl, ho⟩ := apply_forIn step old
    ⟨h, fun hu => hu, rfl, fun _ => rfl, hnew⟩
  exact ⟨s, hrun, hs, hu, hc, hl, fun c hm => (ho c hm).elim (fun hn => hn) (by simp)⟩

omit [Scalar α] in
theorem adoptAll_run (h : t.Pending p []) (hp : t.Live p) (hlist : t.childrenOf p = new)
    (hn : ∀ c ∈ new, t.ownerOf c = none) :
    ∃ s, (forIn new PUnit.unit fun child _ => do
        change child fun n => { n with owner := some p }
        pure (ForInStep.yield PUnit.unit) : Edit α PUnit).apply t = (.ok ⟨⟩, s) ∧ s.Sound ∧
      s.Live p ∧ ∀ {E}, p ∈ E → t.Upward E → s.Upward E := by
  let I := fun (rest : List NodeId) (s : Tree α) => ∃ done, new.Perm (done ++ rest) ∧
    s.Pending p done ∧ s.Live p ∧ (∀ {E}, p ∈ E → t.Upward E → s.Upward E) ∧
    s.childrenOf p = new ∧
    (∀ c ∈ done, s.ownerOf c = some p) ∧ ∀ c ∈ rest, s.ownerOf c = none
  have step : ∀ c rest s, I (c :: rest) s → ∃ u, (do
      change c fun n => { n with owner := some p }
      pure (ForInStep.yield PUnit.unit) : Edit α _).apply s = (.ok (.yield ⟨⟩), u) ∧
      I rest u := by
    rintro c rest s ⟨done, hperm, hs, hsp, hsu, hsl, hdone, hrest⟩
    have hnd : (done ++ c :: rest).Nodup := by
      have honce := hs.once
      rw [hsl] at honce
      exact hperm.nodup_iff.mp honce
    rw [List.nodup_append, List.nodup_cons] at hnd
    have hcd : c ∉ done := fun hm => hnd.2.2 c hm c (by simp) rfl
    have hmem : c ∈ s.childrenOf p := by
      rw [hsl]
      exact hperm.mem_iff.mpr (by simp)
    obtain ⟨n, hn⟩ := hs.held c hmem
    have howner := Tree.ownerOf_adopt (f := fun n => { n with owner := some p }) ⟨n, hn⟩
      fun _ => rfl
    refine ⟨_, by simp [apply_change hn, Except.map], c :: done, ?_,
      hs.adopt hsp ⟨n, hn⟩ (hrest c (by simp)) hcd fun _ => rfl, Tree.live_update.mpr hsp, ?_, ?_,
      ?_, ?_⟩
    · exact hperm.trans List.perm_middle
    · exact fun hpE hu => (hsu hpE hu).update c (by intros; rfl) fun _ q _ ho =>
        Or.inr (Option.some.inj ho ▸ hpE)
    · rw [Tree.childrenOf_update (by intros; rfl), hsl]
    · intro d hd
      rw [howner]
      split
      · rfl
      · rename_i hdc
        exact hdone d ((List.mem_cons.mp hd).resolve_left hdc)
    · intro d hd
      have hdc : d ≠ c := fun he => hnd.2.1.1 (he ▸ hd)
      rw [howner, if_neg hdc]
      exact hrest d (by simp [hd])
  obtain ⟨s, hrun, done, hperm, hs, hsp, hsu, hsl, hdone, -⟩ := apply_forIn step new
    ⟨[], by simp, h, hp, fun _ hu => hu, hlist, by simp, hn⟩
  rw [List.append_nil] at hperm
  refine ⟨s, hrun, hs.close (by rw [hsl]; exact hperm) (Or.inl fun c hc => ?_), hsp, hsu⟩
  rw [hsl] at hc
  simp [Tree.owns, hdone c (hperm.mem_iff.mp hc)]

theorem emptied_run (h : t.Sound) (hn : t.find? p = some n)
    (hnew : ∀ c ∈ new, t.ownerOf c = none ∨ t.ownerOf c = some p) :
    ∃ s, (forIn n.children PUnit.unit fun child _ => do
        if !new.contains child then forgetOwned p child
        modify fun t => t.unlist p child
        pure (ForInStep.yield PUnit.unit) : Edit α PUnit).apply
          (t.update p fun n => { n with children := [] }) = (.ok ⟨⟩, s) ∧
      s.Pending p [] ∧ (∀ {E}, t.Upward E → s.Upward E) ∧ s.childrenOf p = [] ∧
      (∀ x, (s.find? x).map Node.measure = (t.find? x).map Node.measure) ∧
      (∀ x, t.Live x → s.Live x) ∧ ∀ c ∈ new, s.ownerOf c = none := by
  have hpend := h.pending_list hn
  have hempty := hpend.write [] (fun _ _ => rfl) (by simp) List.nodup_nil (fun _ _ _ => rfl)
  have howner : (t.update p fun n => { n with children := [] }).ownerOf = t.ownerOf :=
    Tree.ownerOf_update (by intros; rfl)
  obtain ⟨u, hrun, hu, huu, huc, hum, huo⟩ := clearOld_run new hempty fun c hc => by
    rw [howner]
    rcases hnew c hc with ho | ho
    · exact Or.inl ho
    · exact Or.inr ⟨ho, by rw [← Tree.childrenOf_eq hn]; exact h.arena.mem_of_ownerOf ho⟩
  have hmeasure : ∀ x, (u.find? x).map Node.measure = (t.find? x).map Node.measure := fun x => by
    rw [hum, Tree.map_find?_update (by intros; rfl)]
  refine ⟨u, hrun, hu, fun h => huu ?_, ?_, hmeasure, ?_, huo⟩
  · exact h.update p (by intros; rfl) fun _ _ _ ho => Or.inl ho
  · rw [huc, Tree.childrenOf_write _ ⟨n, hn⟩ fun _ _ => rfl]
  · rintro x ⟨m, hm⟩
    have hx := hmeasure x
    rw [hm] at hx
    obtain ⟨d, hd, -⟩ := Option.map_eq_some_iff.mp hx
    exact ⟨d, hd⟩

theorem setChildren_mends (h : t.Sound) (p : NodeId) (new : List NodeId) :
    (setChildren p new).Mends t := by
  refine ends_node fun n hn => ?_
  dsimp only
  split
  · exact ends_throw
  rename_i hmeasure
  obtain ⟨hend, hok⟩ := checkChildren_run (t := t) (p := p) new []
  refine ends_bind hend fun _ hb => ?_
  obtain ⟨hnew, hnodup⟩ := hok hb
  refine (runs_bind (apply_node hn) (runs_bind (apply_change hn _) ?_)).ends
  obtain ⟨u, hrun, hu, huu, hulist, hmeasure', hlive, huo⟩ :=
    emptied_run h hn fun c hc => (hnew c hc).2.2
  refine runs_bind hrun ?_
  split
  · exact ⟨_, u, rfl, hu.close (by rw [hulist]) (by simp [Tree.Whole, hulist]), huu⟩
  obtain ⟨m, hm⟩ := hlive p ⟨n, hn⟩
  have hwrite := hu.write new
    (fun _ _ => rfl) (fun c hc => hlive c (hnew c hc).2.1) hnodup (fun d hd hs => by
      have hx := hmeasure' p
      rw [hd, hn] at hx
      simp_all)
  have hwo : ∀ c ∈ new, (u.update p fun n => { n with children := new }).ownerOf c = none := by
    rw [Tree.ownerOf_update (by intros; rfl)]
    exact huo
  obtain ⟨v, hrun', hv, hvl, hvu⟩ := adoptAll_run hwrite (Tree.live_update.mpr ⟨m, hm⟩)
    (Tree.childrenOf_write _ ⟨m, hm⟩ fun _ _ => rfl) hwo
  refine runs_bind (apply_change hm _) (runs_bind hrun' (runs_propagateDirty hvl
    ⟨hv.soilUpwards p, fun h => (hvu (Or.inl rfl) ?_).soilUpwards⟩))
  exact ((huu h).mono fun _ hq => Or.inr hq).update p (by intros; rfl) fun _ _ _ ho => Or.inl ho

omit [Scalar α] in
theorem setMeasure_mends (h : t.Sound) (id : NodeId) (measure : Measure α) :
    (setMeasure id measure).Mends t := by
  refine ends_node fun n hn => ?_
  dsimp only
  split
  · exact ends_throw
  rename_i hempty
  refine ends_change fun _ _ => (Tree.Mended.refl h).update fun m hm => ⟨?_, rfl⟩
  obtain rfl : n = m := Option.some.inj (hn.symm.trans hm)
  exact ⟨rfl, rfl, rfl, fun _ => Or.inr (by simpa using hempty), fun hk => hk⟩

omit [Scalar α] in
theorem setReferenceBaseline_mends (h : t.Sound) (id : NodeId) (value : Bool) :
    (setReferenceBaseline id value).Mends t := by
  refine ends_node fun n _ => ?_
  split
  · exact change_propagate_mends h fun _ _ => ⟨⟨rfl, rfl, rfl, Or.inl, fun hk => hk⟩, rfl⟩
  · exact Runs.ends ⟨_, t, rfl, .refl h⟩

omit [Scalar α] in
theorem setNodeConfig_mends (h : t.Sound) (id : NodeId) {config : Config α}
    (hc : config.onCopy = none) : (setNodeConfig id config).Mends t :=
  change_propagate_mends h fun _ _ => ⟨⟨rfl, rfl, rfl, Or.inl, fun _ => hc⟩, rfl⟩

theorem apply_updateStyle (hn : t.find? id = some n) (hs : n.isShared = false)
    (f : Style α → Style α) :
    (updateStyle id f).apply t = (.ok ⟨⟩,
      if f n.style != n.style then
        (t.update id fun m => { m with style := f n.style }).soilUpwards id
      else t.update id fun m => { m with style := f n.style }) := by
  have hlive : (t.update id fun m => { m with style := f n.style }).Live id :=
    Tree.live_update.mpr ⟨n, hn⟩
  cases hb : f n.style != n.style <;>
    simp [updateStyle, apply_bind, apply_node hn, hs, apply_change hn, hb,
      apply_propagateDirty hlive]

theorem updateStyle_mends (h : t.Sound) (id : NodeId) (f : Style α → Style α) :
    (updateStyle id f).Mends t := by
  by_cases hok : ∃ n, t.find? id = some n ∧ n.isShared = false
  · obtain ⟨n, hn, hs⟩ := hok
    have hw : t.Mended (t.update id fun m => { m with style := f n.style }) :=
      (Tree.Mended.refl h).update fun _ _ => ⟨⟨rfl, rfl, rfl, Or.inl, fun hk => hk⟩, rfl⟩
    refine Runs.ends ⟨_, _, apply_updateStyle hn hs f, ?_⟩
    split
    · exact hw.soilUpwards id
    · exact hw
  · refine ends_node fun n hn => ?_
    dsimp only
    rw [if_pos (by simpa using fun hs => hok ⟨n, hn, hs⟩)]
    exact ends_throw

omit [Scalar α]

theorem setDirty_ends (h : t.Sound) (id : NodeId) (dirty : Bool) :
    (setDirty id dirty).Ends t Tree.Sound := by
  unfold setDirty
  split
  · exact (propagateDirty_mends h id).ends
  · exact ends_change fun _ _ => h.update id

theorem markDirty_mends (h : t.Sound) (id : NodeId) : (markDirty id).Mends t := by
  refine ends_node fun n _ => ?_
  dsimp only
  split
  · exact ends_throw
  · exact propagateDirty_mends h id

theorem soilSubtree_succeeds (fuel : Nat) (h : t.Sound) (hl : t.Live id) :
    ∃ s, (soilSubtree fuel id).apply t = (.ok ⟨⟩, s) ∧ s.Sound ∧ ∀ x, t.Live x → s.Live x := by
  induction fuel generalizing t id with
  | zero => exact ⟨t, rfl, h, fun _ hx => hx⟩
  | succ fuel ih =>
    obtain ⟨n, hn⟩ := hl
    have hw : (t.update id Node.soiled).Sound := h.update id
    have hwalk : ∀ (cs : List NodeId) (u : Tree α), u.Sound → (∀ c ∈ cs, u.Live c) →
        ∃ s, (cs.forM (soilSubtree fuel)).apply u = (.ok ⟨⟩, s) ∧ s.Sound ∧
          ∀ x, u.Live x → s.Live x := by
      intro cs
      induction cs with
      | nil => exact fun u hu _ => ⟨u, rfl, hu, fun _ hx => hx⟩
      | cons c cs ihcs =>
        intro u hu hcs
        obtain ⟨v, hrun, hv, hvl⟩ := ih hu (hcs c (by simp))
        obtain ⟨s, hrest, hs, hsl⟩ := ihcs v hv fun d hd => hvl d (hcs d (by simp [hd]))
        refine ⟨s, ?_, hs, fun x hx => hsl x (hvl x hx)⟩
        change (soilSubtree fuel c >>= fun _ => cs.forM (soilSubtree fuel)).apply u = _
        rw [apply_bind, hrun]
        exact hrest
    obtain ⟨s, hrun, hs, hsl⟩ := hwalk n.children _ hw fun c hc =>
      Tree.live_update.mpr (h.arena.live hn hc)
    refine ⟨s, ?_, hs, fun x hx => hsl x (Tree.live_update.mpr hx)⟩
    rw [soilSubtree, apply_bind, apply_node hn]
    dsimp only
    rw [apply_bind, apply_change hn]
    exact hrun

theorem propagateDirtyDown_ends (h : t.Sound) (id : NodeId) :
    (propagateDirtyDown id).Ends t Tree.Sound := by
  refine ends_bind rfl fun u hu => ?_
  obtain rfl : t = u := Except.ok.inj hu
  by_cases hl : t.Live id
  · obtain ⟨s, hrun, hs, -⟩ := soilSubtree_succeeds (t.slots.size + 1 + 0) h hl
    exact Runs.ends ⟨_, s, hrun, hs⟩
  · exact ends_node fun n hn => absurd ⟨n, hn⟩ hl

end Edit

end Flexbox
