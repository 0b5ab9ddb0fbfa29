import Flexbox.Proofs.CleanOverDirty
import Flexbox.Proofs.Territory

namespace Flexbox

variable {α : Type}

namespace Tree

variable {t s : Tree α} {S : Set NodeId} {root x y : NodeId} {n : Node α}

theorem BelongsTo.reaches (ht : t.Arena) (h : t.BelongsTo x root) : t.Reaches root x := by
  induction h using Relation.ReflTransGen.head_induction_on with
  | refl => exact .refl
  | head hc _ ih => exact ih.tail (ht.mem_of_ownerOf hc)

theorem BelongsTo.mono (hold : ∀ x, t.Live x → s.ownerOf x = t.ownerOf x)
    (h : t.BelongsTo x root) : s.BelongsTo x root := by
  refine Relation.ReflTransGen.mono (fun c p hc => ?_) _ _ h
  obtain ⟨n, hn, -⟩ := Option.bind_eq_some_iff.mp hc
  rw [hold c ⟨n, hn⟩, hc]

def Peopled (S : Set NodeId) (root : NodeId) (t : Tree α) : Prop :=
  ∀ x ∈ S, t.Live x → t.BelongsTo x root

theorem Peopled.congr (h : t.Peopled S root) (hl : ∀ x, s.Live x ↔ t.Live x)
    (ho : s.ownerOf = t.ownerOf) : s.Peopled S root :=
  fun x hx hsx => (h x hx ((hl x).mp hsx)).mono fun y _ => congrFun ho y

theorem Privatized.peopled {p : NodeId} (h : t.Privatized p s) (hp : t.BelongsTo p root)
    (hS : t.Peopled S root) : s.Peopled S root := by
  have hold : ∀ x, t.Live x → s.ownerOf x = t.ownerOf x := fun _ hx => h.ownerOf hx
  intro x hx hsx
  rcases h.new x hsx with hl | hm
  · exact (hS x hx hl).mono hold
  · exact .head (by simpa [owns] using h.owned x hm) (hp.mono hold)

theorem ownerOf_sweep {γ : Type} {change : γ → Node α → Node α} {down : γ → Node α → γ}
    (hc : ∀ y n, (change y n).owner = n.owner) (fuel : Nat) (y : γ) (id : NodeId) :
    (t.sweep change down fuel y id).ownerOf = t.ownerOf := by
  funext x
  have hmap := map_find?_sweep (t := t) change down (f := Node.owner) hc fuel y id x
  rw [ownerOf, ownerOf]
  cases hs : (t.sweep change down fuel y id).find? x <;> cases ht : t.find? x <;> simp_all

end Tree

namespace Pass

variable [Scalar α] {S : Set NodeId} {p q : Pass α} {root : NodeId}

theorem Step.peopled (h : Step S p q) (hs : p.tree.Sound) (hS : p.tree.Peopled S root) :
    q.tree.Peopled S root := by
  cases h with
  | update _ hf =>
    exact hS.congr (fun _ => Tree.live_update) (Tree.ownerOf_update fun n _ => (hf n).links.owner)
  | own hid hl =>
    obtain ⟨s, he, -, hp⟩ := ownChildren_run hs hl
    rw [he]
    exact hp.peopled (hS _ hid hl) hS
  | tell | record | count => exact hS

theorem Moves.peopled (h : Moves S p q) (hs : p.tree.Sound) (hS : p.tree.Peopled S root) :
    q.tree.Peopled S root := by
  induction h with
  | refl => exact hS
  | tail hm hstep ih => exact hstep.peopled (Moves.sound hm hs) ih

end Pass

namespace Tree

variable [Scalar α] {t s : Tree α} {root x : NodeId} {n : Node α} {v : Viewport α}
  {r : Request α}

theorem laidOut_clean (ht : t.Sound) (hg : t.Grounded root)
    (hr : (t.laidOut root v r).Reaches root x) : ¬ (t.laidOut root v r).Dirty x := by
  have hground := runPass_grounded (v := v) (r := r) ht hg
  intro hdirty
  obtain ⟨m, hm, -⟩ := Option.map_eq_some_iff.mp hdirty
  obtain ⟨k, hk⟩ : (t.runPass root v r .initial).tree.Live x :=
    ((clean_shape _ root 0).live x).mp ⟨m, hm⟩
  have hreached : (t.runPass root v r .initial).tree.Reaches root x := by
    rwa [← (clean_shape (t.runPass root v r .initial).tree root 0).reaches]
  rw [Dirty, markOf, laidOut, (find?_clean hground hk 0).2 hreached] at hdirty
  cases hdirty

theorem laidOut_peopled (ht : t.Sound) (hn : t.find? root = some n) :
    (t.laidOut root v r).Peopled (t.territory root) root := by
  have ha : Pass.Admitted (t.territory root) (Pass.start t .initial) root :=
    ⟨ht, territory_domain ht.arena root, mem_territory_self t root, ⟨n, hn⟩⟩
  obtain ⟨q, hmoves, hend⟩ := runPass_stages ha hn
  have hq : q.tree.Peopled (t.territory root) root := hmoves.peopled ht fun x hx hl => hx hl
  have hpass : (t.runPass root v r .initial).tree.Peopled (t.territory root) root := by
    rcases hend with he | ⟨-, he⟩
    · rwa [he]
    · rw [he]
      refine hq.congr (snap_shape _ _ _ _).live ?_
      unfold snap
      split
      · rfl
      · exact ownerOf_sweep (by intros; rfl) _ _ _
  exact hpass.congr (clean_shape _ _ _).live (ownerOf_sweep (by intros; rfl) _ _ _)

theorem laidOut_upward (ht : t.Sound) (hg : t.Grounded root) (hu : t.Upward ∅) :
    (t.laidOut root v r).Upward ∅ := by
  obtain ⟨n, hn⟩ := hg.live
  have hw := laidOut_sound (v := v) (r := r) ht ⟨n, hn⟩
  have hpeopled := laidOut_peopled (v := v) (r := r) ht hn
  have hclean := fun x => laidOut_clean (v := v) (r := r) (x := x) ht hg
  have helse := fun x (hx : x ∉ t.territory root) k (hk : t.find? x = some k) =>
    (laidOut_elsewhere (v := v) (r := r) ⟨ht, territory_domain ht.arena root,
      mem_territory_self t root, ⟨n, hn⟩⟩ hg hn hx hk).1
  generalize t.laidOut root v r = w at hw hpeopled hclean helse
  intro c p ho hdirty hp
  -- A dirty node is not reached, so it belongs elsewhere and is as dirty as it was.
  obtain ⟨m, hm, hmo⟩ := Option.bind_eq_some_iff.mp ho
  have hcr : ¬ w.Reaches root c := fun hr => hclean c hr hdirty
  have hct : c ∉ t.territory root := fun hc => hcr ((hpeopled c hc ⟨m, hm⟩).reaches hw.arena)
  obtain ⟨k, hk⟩ : t.Live c := by
    by_contra hl
    exact hct fun hc => absurd hc hl
  obtain ⟨m', hm', htouched⟩ := helse c hct k hk
  obtain rfl := Option.some.inj (hm.symm.trans hm')
  obtain ⟨hsame, -⟩ := htouched.spared hcr
  obtain ⟨j, position, size, hshape⟩ := htouched.shape
  have hko : t.ownerOf c = some p := by
    rw [ownerOf_eq hk, ← hmo, hshape]
  have hkd : t.Dirty c := by
    rw [dirty_iff hk, ← hsame]
    exact (dirty_iff hm).mp hdirty
  -- So is its owner, which belongs elsewhere too and is not reached either.
  obtain ⟨l, hl⟩ := ht.arena.owner_live hko
  have hpt : p ∉ t.territory root := fun hp => hct fun _ => .head hko (hp ⟨l, hl⟩)
  have hpr : ¬ w.Reaches root p := fun hr => hcr (hr.tail (hw.arena.mem_of_ownerOf ho))
  obtain ⟨l', hl', htouched'⟩ := helse p hpt l hl
  have hclean' : t.Clean p := by
    rw [clean_iff hl, ← (htouched'.spared hpr).1]
    exact (clean_iff hl').mp hp
  exact hu c p hko hkd hclean'

omit [Scalar α] in
theorem Upward.soilDown (hu : t.Upward ∅) (hg : t.Grounded root) (hroot : t.ownerOf root = none)
    (hown : ∀ x c, t.Reaches root x → c ∈ t.childrenOf x → t.ownerOf c = some x) :
    (t.sweepAll Node.soiled root 0).Upward ∅ := by
  intro c p ho hdirty hclean
  rw [sweepAll, ownerOf_sweep (by intros; rfl)] at ho
  have hkeep : ∀ {x}, ¬ t.Reaches root x →
      (t.sweepAll Node.soiled root 0).markOf x = t.markOf x := fun hx => by
    rw [markOf, sweepAll, sweep_elsewhere (by intros; rfl) hx, markOf]
  have hp : ¬ t.Reaches root p := by
    intro hr
    obtain ⟨m, hm, hfalse⟩ := Option.map_eq_some_iff.mp hclean
    have htrue : m.isDirty = true := sweep_reached (P := fun m => m.isDirty = true)
      (by intros; rfl) (by intros; rfl) hg.unfold_slots (by omega) hr _ m hm
    rw [htrue] at hfalse
    cases hfalse
  have hc : ¬ t.Reaches root c := by
    intro hr
    rcases Relation.ReflTransGen.cases_tail hr with rfl | ⟨q, hq, hqc⟩
    · rw [hroot] at ho
      cases ho
    · rw [hown q c hq hqc] at ho
      exact hp (Option.some.inj ho ▸ hq)
  rw [Dirty, hkeep hc] at hdirty
  rw [Clean, hkeep hp] at hclean
  exact hu c p ho hdirty hclean

omit [Scalar α] in
theorem Beside.reached (h : t.Beside s root) (hr : s.Reaches root x) : ¬ t.Live x := by
  induction hr with
  | refl => exact h.fresh
  | tail _ hc ih => exact h.secluded.closed _ ih _ hc

theorem Beside.plain_upward (h : t.Beside s root) (hu : s.Upward ∅) :
    (s.plain root).Upward ∅ := by
  have hplain : (s.withoutLegacyStretch root 0).Upward ∅ :=
    hu.congr (funext fun x => map_find?_sweep _ _ (by intros; rfl) _ _ _ x)
      (ownerOf_sweep (by intros; rfl) _ _ _)
  have hb : t.Beside (s.withoutLegacyStretch root 0) root := h.sweepAll
  have hsoiled := hplain.soilDown hb.grounded hb.detached.1
    fun x c hr hc => hb.secluded.owned x (hb.reached hr) c hc
  unfold Tree.plain primed
  generalize (s.withoutLegacyStretch root 0).sweepAll _ _ _ = u at hsoiled ⊢
  exact hsoiled.update root (by intros; rfl) fun _ _ _ ho => Or.inl ho

end Tree

namespace Edit

open Tree

variable [Scalar α] {t : Tree α} {root : NodeId}

theorem compareLegacyStretch_upward (ht : t.Sound) (hg : t.Grounded root) (hu : t.Upward ∅)
    (hclean : ∀ x, t.Reaches root x → ¬ t.Dirty x) (v : Viewport α) (r : Request α)
    (limits : Limits α) : ((compareLegacyStretch root v r limits).apply t).2.Upward ∅ := by
  obtain ⟨copy, s, R, hcloned, htraced, hcopy, hs, -, hrun⟩ := layOutPlainCopy_run ht hg v r
  have hus : s.Upward ∅ := by
    refine (hcloned.upward_iff htraced hcopy ht hu).mpr fun x hx hover => ?_
    obtain ⟨-, c, hc, hdirty⟩ := hover
    exact hclean c (hx.tail hc) hdirty
  have hlaid := laidOut_upward (v := v) (r := r) hs.plain.sound hs.plain.grounded
    (hs.plain_upward hus)
  refine final_bind (hrun limits) (final_bind apply_get ?_)
  refine final_seq (final_change hlaid fun _ _ => hlaid.update root (by intros; rfl) ?_)
    fun _ u hu =>
    freeRecursiveWith_upward hu _ copy _
  exact fun _ _ _ ho => Or.inl ho

theorem calculateLayout_upward (ht : t.Sound) (hg : t.Live root → t.Grounded root)
    (hu : t.Upward ∅) (v : Viewport α) (limits : Limits α) :
    ((calculateLayout root v limits).apply t).2.Upward ∅ := by
  by_cases hl : t.Live root
  swap
  · rw [calculateLayout, apply_bind, apply_change_none (not_live.mp hl)]
    exact hu
  have hg := hg hl
  obtain ⟨n, hn⟩ := hl
  have hg₀ : (t.primed root).Grounded root := primed_grounded.mpr hg
  have hu₀ : (t.primed root).Upward ∅ :=
    hu.update root (f := Node.resolveSize) (by intros; rfl) fun _ _ _ ho => Or.inl ho
  have huw := laidOut_upward (v := v) (r := rootRequest n.resolveSize v) (ht.primed root) hg₀ hu₀
  have hclean := fun x =>
    laidOut_clean (v := v) (r := rootRequest n.resolveSize v) (x := x) (ht.primed root) hg₀
  obtain ⟨w, -, hlogged, hw, hgw, hrun⟩ := calculateLayout_cases ht hg hn v
  have hmark : w.markOf = _ := funext fun x => by simp only [markOf, hlogged.find?]; rfl
  have huw' : w.Upward ∅ := huw.congr hmark (funext fun x => by simp only [ownerOf, hlogged.find?])
  rw [hrun]
  split
  · refine compareLegacyStretch_upward hw hgw huw' (fun x hr => ?_) v _ limits
    rw [Dirty, hmark]
    exact hclean x (by rwa [← hlogged.shape.reaches])
  · exact huw'

end Edit

end Flexbox
