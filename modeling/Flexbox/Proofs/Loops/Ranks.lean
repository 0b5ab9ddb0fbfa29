import Flexbox.Proofs.Acts

namespace Flexbox

namespace Tree

variable {α : Type} {t s u : Tree α} {x : NodeId} {k : Node α → Node α}

def Known (t : Tree α) (x : NodeId) : Prop :=
  ∃ slot, t.slots[x.slot]? = some slot ∧ x.version ≤ slot.version

theorem Live.known (h : t.Live x) : t.Known x := by
  obtain ⟨n, hn⟩ := h
  exact ⟨_, find?_eq_some.mp hn, Nat.le_refl _⟩

theorem Known.update (h : t.Known x) (id : NodeId) (f : Node α → Node α) :
    (t.update id f).Known x := by
  obtain ⟨slot, hslot, hle⟩ := h
  unfold Known Tree.update
  simp only [Array.getElem?_modify, hslot]
  split
  · refine ⟨_, rfl, ?_⟩
    dsimp only
    split <;> exact hle
  · exact ⟨slot, rfl, hle⟩

theorem Known.erase (h : t.Known x) (id : NodeId) : (t.erase id).Known x := by
  obtain ⟨slot, hslot, hle⟩ := h
  unfold Known Tree.erase
  split
  · simp only [Array.getElem?_modify, hslot]
    split
    · exact ⟨_, rfl, Nat.le_succ_of_le hle⟩
    · exact ⟨slot, rfl, hle⟩
  · exact ⟨slot, hslot, hle⟩

theorem Known.insert (h : t.Known x) (n : Node α) : (t.insert n).2.Known x := by
  obtain ⟨slot, hslot, hle⟩ := h
  unfold Known Tree.insert
  split
  · have hlt := (Array.getElem?_eq_some_iff.mp hslot).1
    refine ⟨slot, ?_, hle⟩
    rw [Array.getElem?_push, if_neg (by omega), hslot]
  · rename_i i rest hf
    simp only [Array.getElem?_modify, hslot]
    split
    · rename_i hi
      refine ⟨_, rfl, ?_⟩
      simp only [hi, hslot, Option.map_some, Option.getD_some]
      omega
    · exact ⟨slot, rfl, hle⟩

theorem Tidy.insert_unknown (h : t.Tidy) (n : Node α) : ¬ t.Known (t.insert n).1 := by
  rintro ⟨slot, hslot, hle⟩
  cases hf : t.free with
  | nil => simp [Tree.insert, hf] at hslot
  | cons i rest =>
    obtain ⟨v, hv⟩ := h.empty i (by simp [hf])
    simp only [Tree.insert, hf, hv, Option.map_some, Option.getD_some, Option.some.injEq]
      at hslot hle
    subst hslot
    exact absurd hle (Nat.not_succ_le_self v)

/-- Lists hold none but names that were given. -/
structure Filed (t : Tree α) : Prop where
  tidy : t.Tidy
  known : ∀ {p c}, c ∈ t.childrenOf p → t.Known c

theorem Filed.empty (config : Config α) : (Tree.empty config).Filed :=
  ⟨.empty_tree config, fun hc => by simp [childrenOf, find?_empty] at hc⟩

variable {R : NodeId → NodeId → Prop} {f g j : NodeId → NodeId} {X Y : Set NodeId}

/-- Every name has a rank, and what a node lists ranks below it. -/
structure Ranked (R : NodeId → NodeId → Prop) (f : NodeId → NodeId) (t : Tree α) : Prop
    extends t.Filed where
  below : ∀ {p c}, c ∈ t.childrenOf p → R (f p) (f c)

theorem Ranked.acyclic {E : NodeId → NodeId → Prop} (h : t.Ranked (Relation.TransGen E) f)
    (hE : ∀ x, ¬ Relation.TransGen E x x) : t.Acyclic := fun x hx =>
  hE (f x) (Relation.TransGen.lift' f (fun _ _ hc => h.below hc) x x hx)

/-- On the way from `t` to `s` names were given, and those that were there before keep their ranks.
Outside of `X` lists are as they were. -/
structure Follows (X : Set NodeId) (R : NodeId → NodeId → Prop) (t : Tree α) (f : NodeId → NodeId)
    (s : Tree α) (g : NodeId → NodeId) : Prop where
  ranked : s.Ranked R g
  named : ∀ {x}, t.Known x → s.Known x ∧ g x = f x
  kept : ∀ {x}, t.Live x → x ∉ X → s.Live x ∧ s.childrenOf x = t.childrenOf x

theorem Ranked.follows (h : t.Ranked R f) : t.Follows X R f t f :=
  ⟨h, fun hx => ⟨hx, rfl⟩, fun hx _ => ⟨hx, rfl⟩⟩

section

variable (h : t.Follows X R f s g)

include h

theorem Follows.trans (h' : s.Follows X R g u j) : t.Follows X R f u j :=
  ⟨h'.ranked,
    fun hx =>
      have hs := h.named hx
      ⟨(h'.named hs.1).1, (h'.named hs.1).2.trans hs.2⟩,
    fun hx hX =>
      have hs := h.kept hx hX
      ⟨(h'.kept hs.1 hX).1, (h'.kept hs.1 hX).2.trans hs.2⟩⟩

theorem Follows.mono (hX : X ⊆ Y) : t.Follows Y R f s g :=
  ⟨h.ranked, h.named, fun hx hY => h.kept hx fun hno => hY (hX hno)⟩

theorem Follows.write (id : NodeId) (hX : id ∈ X ∨ ∀ n, (k n).children = n.children)
    (hk : ∀ n, s.find? id = some n → ∀ c ∈ (k n).children, s.Known c ∧ R (g id) (g c)) :
    t.Follows X R f (s.update id k) g := by
  have hchild : ∀ {p c}, c ∈ (s.update id k).childrenOf p → s.Known c ∧ R (g p) (g c) := by
    intro p c hc
    obtain ⟨m, hm, hcm⟩ := mem_childrenOf.mp hc
    obtain ⟨n, hn, rfl⟩ := find?_update_eq_some hm
    by_cases hp : p = id
    · subst hp
      rw [if_pos rfl] at hcm
      exact hk n hn c hcm
    · rw [if_neg hp] at hcm
      have hcn := mem_childrenOf.mpr ⟨n, hn, hcm⟩
      exact ⟨h.ranked.known hcn, h.ranked.below hcn⟩
  refine ⟨⟨⟨h.ranked.tidy.update id k, fun hc => (hchild hc).1.update id k⟩,
    fun hc => (hchild hc).2⟩, fun hx => ⟨(h.named hx).1.update id k, (h.named hx).2⟩,
    fun {x} hx hout => ⟨live_update.mpr (h.kept hx hout).1, ?_⟩⟩
  rw [← (h.kept hx hout).2]
  rcases hX with hX | hsame
  · have hne : x ≠ id := by
      rintro rfl
      exact hout hX
    rw [childrenOf, childrenOf, find?_update_other _ _ hne]
  · rw [childrenOf_update fun n _ => hsame n]

theorem Follows.drop {id : NodeId} (hX : id ∈ X) (hk : ∀ n, (k n).children ⊆ n.children) :
    t.Follows X R f (s.update id k) g :=
  h.write id (Or.inl hX) fun n hn _ hc =>
    have hcn := mem_childrenOf.mpr ⟨n, hn, hk n hc⟩
    ⟨h.ranked.known hcn, h.ranked.below hcn⟩

theorem Follows.update (id : NodeId) (hk : ∀ n, (k n).children = n.children) :
    t.Follows X R f (s.update id k) g :=
  h.write id (Or.inr hk) fun n hn _ hc =>
    have hcn := mem_childrenOf.mpr ⟨n, hn, hk n ▸ hc⟩
    ⟨h.ranked.known hcn, h.ranked.below hcn⟩

theorem Follows.unlist (p c : NodeId) : t.Follows X R f (s.unlist p c) g :=
  h.update c fun n => by split <;> rfl

theorem Follows.share (cs : List NodeId) : t.Follows X R f (s.share cs) g :=
  List.foldlRecOn cs _ (motive := fun s => t.Follows X R f s g) h fun _ h c _ =>
    h.update c fun _ => rfl

theorem Follows.tell (e : Event α) : t.Follows X R f (s.tell e) g :=
  ⟨⟨⟨⟨h.ranked.tidy.empty, h.ranked.tidy.nodup⟩, h.ranked.known⟩, h.ranked.below⟩, h.named, h.kept⟩

theorem Follows.soilUpwards (id : NodeId) : t.Follows X R f (s.soilUpwards id) g :=
  soilChain_keeps (P := fun s => t.Follows X R f s g) (fun _ x hs => hs.update x fun _ => rfl)
    (fun _ e hs => hs.tell e) _ _ h

theorem Follows.erase {id : NodeId} (hX : id ∈ X) : t.Follows X R f (s.erase id) g := by
  have hchild : ∀ {p c}, c ∈ (s.erase id).childrenOf p → c ∈ s.childrenOf p := by
    intro p c hc
    obtain ⟨m, hm, hc⟩ := mem_childrenOf.mp hc
    rw [find?_erase] at hm
    split at hm
    · cases hm
    · exact mem_childrenOf.mpr ⟨m, hm, hc⟩
  refine ⟨⟨⟨h.ranked.tidy.erase id, fun hc => (h.ranked.known (hchild hc)).erase id⟩,
    fun hc => h.ranked.below (hchild hc)⟩,
    fun hx => ⟨(h.named hx).1.erase id, (h.named hx).2⟩, fun {x} hx hout => ?_⟩
  have hne : x ≠ id := by
    rintro rfl
    exact hout hX
  have hfind : (s.erase id).find? x = s.find? x := by rw [find?_erase, if_neg hne]
  rw [← (h.kept hx hout).2]
  exact ⟨(h.kept hx hout).1.congr hfind, by rw [childrenOf, childrenOf, hfind]⟩

/-- A new node ranks as one does that lists all that it lists. -/
theorem Follows.insert {n : Node α} {c : NodeId} (hn : n.children ⊆ s.childrenOf c) :
    t.Follows X R f (s.insert n).2 (Function.update g (s.insert n).1 (g c)) := by
  have hnew := h.ranked.tidy.insert_unknown n
  have hfind := h.ranked.tidy.find?_insert n
  have hother : ∀ {x}, s.Known x → x ≠ (s.insert n).1 := by
    rintro x hx rfl
    exact hnew hx
  have hchild : ∀ {p d}, d ∈ (s.insert n).2.childrenOf p →
      s.Known d ∧ R (Function.update g (s.insert n).1 (g c) p) (g d) := by
    intro p d hd
    obtain ⟨m, hm, hd⟩ := mem_childrenOf.mp hd
    rw [hfind] at hm
    split at hm
    · rename_i hp
      obtain rfl := Option.some.inj hm
      rw [hp, Function.update_self]
      exact ⟨h.ranked.known (hn hd), h.ranked.below (hn hd)⟩
    · rename_i hp
      have hdp := mem_childrenOf.mpr ⟨m, hm, hd⟩
      rw [Function.update_of_ne hp]
      exact ⟨h.ranked.known hdp, h.ranked.below hdp⟩
  refine ⟨⟨⟨h.ranked.tidy.insert n, fun hd => (hchild hd).1.insert n⟩, fun hd => ?_⟩,
    fun hx => ⟨(h.named hx).1.insert n, ?_⟩, fun {x} hx hout => ?_⟩
  · rw [Function.update_of_ne (hother (hchild hd).1)]
    exact (hchild hd).2
  · rw [Function.update_of_ne (hother (h.named hx).1), (h.named hx).2]
  · obtain ⟨hl, hc⟩ := h.kept hx hout
    have hsame : (s.insert n).2.find? x = s.find? x := by rw [hfind, if_neg (hother hl.known)]
    rw [← hc]
    exact ⟨hl.congr hsame, by rw [childrenOf, childrenOf, hsame]⟩

end

theorem insert_known (h : s.Tidy) (n : Node α) : (s.insert n).2.Known (s.insert n).1 :=
  Live.known ⟨n, by rw [h.find?_insert, if_pos rfl]⟩

end Tree

namespace Edit

open Tree

variable {α β γ : Type} {t : Tree α} {p c a : NodeId} {R : NodeId → NodeId → Prop}
  {f : NodeId → NodeId} {X Y : Set NodeId}

/-- Whether it succeeds or fails, the edit gives ranks to new names and keeps those of others. What
it answers has `Q`. -/
def Ranks (X : Set NodeId) (R : NodeId → NodeId → Prop) (t : Tree α) (f : NodeId → NodeId)
    (e : Edit α β) (Q : Tree α → (NodeId → NodeId) → β → Prop) : Prop :=
  ∃ r s g, e.apply t = (r, s) ∧ t.Follows X R f s g ∧ ∀ b, r = .ok b → Q s g b

/-- Ranks are kept in every tree. -/
def Tame (X : Set NodeId) (e : Edit α β) : Prop :=
  ∀ ⦃R t f⦄, t.Ranked R f → e.Ranks X R t f fun _ _ _ => True

section Rules

variable {e : Edit α β} {k : β → Edit α γ} {Q : Tree α → (NodeId → NodeId) → β → Prop}
  {P : Tree α → (NodeId → NodeId) → γ → Prop}

theorem Ranks.bind (he : e.Ranks X R t f Q)
    (hk : ∀ b s g, t.Follows X R f s g → Q s g b → (k b).Ranks X R s g P) :
    (e >>= k).Ranks X R t f P := by
  obtain ⟨r, s, g, hrun, hs, hQ⟩ := he
  unfold Ranks
  rw [apply_bind, hrun]
  cases r with
  | error x => exact ⟨_, s, g, rfl, hs, nofun⟩
  | ok b =>
    obtain ⟨r, u, j, hrun', hu, hP⟩ := hk b s g hs (hQ b rfl)
    exact ⟨r, u, j, hrun', hs.trans hu, hP⟩

theorem ranks_pure (h : t.Ranked R f) {b : β} (hQ : Q t f b) :
    (pure b : Edit α β).Ranks X R t f Q :=
  ⟨_, t, f, rfl, h.follows, fun _ hb => Except.ok.inj hb ▸ hQ⟩

theorem ranks_node (h : t.Ranked R f) {id : NodeId} {k : Node α → Edit α γ}
    (hk : ∀ n, t.find? id = some n → (k n).Ranks X R t f P) : (node id >>= k).Ranks X R t f P := by
  unfold Ranks
  rw [apply_bind]
  cases hn : t.find? id with
  | none =>
    rw [apply_node_none hn]
    exact ⟨_, t, f, rfl, h.follows, nofun⟩
  | some n =>
    rw [apply_node hn]
    exact hk n hn

theorem Tame.bind (he : e.Tame X) (hk : ∀ b, (k b).Tame X) : (e >>= k).Tame X := fun _ _ _ h =>
  (he h).bind fun b _ _ hs _ => hk b hs.ranked

theorem Tame.mono (he : e.Tame X) (hX : X ⊆ Y) : e.Tame Y := fun _ _ _ h =>
  have ⟨r, s, g, hrun, hs, hQ⟩ := he h
  ⟨r, s, g, hrun, hs.mono hX, hQ⟩

theorem Tame.after (he : e.Tame X) {s : Tree α} {g : NodeId → NodeId} (h : t.Follows X R f s g) :
    ∃ j, t.Follows X R f (e.apply s).2 j := by
  obtain ⟨r, u, j, hrun, hu, -⟩ := he h.ranked
  rw [hrun]
  exact ⟨j, h.trans hu⟩

theorem tame_of_unchanged (h : ∀ t : Tree α, (e.apply t).2 = t) : e.Tame X := fun _ t f hf =>
  ⟨(e.apply t).1, t, f, Prod.ext rfl (h t), hf.follows, fun _ _ => trivial⟩

theorem tame_pure (b : β) : (pure b : Edit α β).Tame X := tame_of_unchanged fun _ => rfl

theorem tame_throw (x : Fault) : ((throw x : Edit α β) >>= k).Tame X :=
  tame_of_unchanged fun _ => rfl

theorem tame_get : (get : Edit α (Tree α)).Tame X := tame_of_unchanged fun _ => rfl

theorem apply_node_snd (id : NodeId) : ((node id).apply t).2 = t := by
  cases hn : t.find? id with
  | none => rw [apply_node_none hn]
  | some n => rw [apply_node hn]

theorem tame_node (id : NodeId) : (node id : Edit α (Node α)).Tame X :=
  tame_of_unchanged fun _ => apply_node_snd id

theorem tame_modify {m : Tree α → Tree α}
    (hm : ∀ {R} {t : Tree α} {f}, t.Ranked R f → t.Follows X R f (m t) f) :
    (modify m : Edit α PUnit).Tame X :=
  fun _ _ f h => ⟨_, _, f, rfl, hm h, fun _ _ => trivial⟩

theorem tame_change (id : NodeId) {k : Node α → Node α} (hk : ∀ n, (k n).children = n.children) :
    (change id k).Tame X :=
  (tame_node id).bind fun _ => tame_modify fun h => h.follows.update id hk

theorem tame_drop {id : NodeId} (hX : id ∈ X) {k : Node α → Node α}
    (hk : ∀ n, (k n).children ⊆ n.children) : (change id k).Tame X :=
  (tame_node id).bind fun _ => tame_modify fun h => h.follows.drop hX hk

theorem tame_forIn {body : γ → Edit α (ForInStep PUnit)} (hb : ∀ x, (body x).Tame X)
    (xs : List γ) : (forIn xs PUnit.unit fun x _ => body x).Tame X := by
  induction xs with
  | nil => exact tame_pure _
  | cons x xs ih =>
    rw [List.forIn_cons]
    refine (hb x).bind fun r => ?_
    cases r with
    | done => exact tame_pure _
    | yield => exact ih

theorem tame_forM {body : γ → Edit α PUnit} (hb : ∀ x, (body x).Tame X) (xs : List γ) :
    (xs.forM body).Tame X := by
  induction xs with
  | nil => exact tame_pure _
  | cons x xs ih => exact (hb x).bind fun _ => ih

theorem tame_propagateDirty (id : NodeId) : (propagateDirty id : Edit α Unit).Tame X :=
  (tame_node id).bind fun _ => tame_modify fun h => h.follows.soilUpwards id

theorem tame_unlist (p c : NodeId) : (modify fun t => t.unlist p c : Edit α PUnit).Tame X :=
  tame_modify fun h => h.follows.unlist p c

theorem Tame.discard (he : e.Tame X) : (discard e).Tame X := fun _ t _ h =>
  have ⟨_, s, g, hrun, hs, _⟩ := he h
  ⟨((Functor.discard e).apply t).1, s, g, Prod.ext rfl (by rw [apply_discard, hrun]), hs,
    fun _ _ => trivial⟩

end Rules

/-- These names were given, and rank below `a`. -/
def Beneath (R : NodeId → NodeId → Prop) (a : NodeId) (s : Tree α) (g : NodeId → NodeId)
    (ks : List NodeId) : Prop :=
  ∀ k ∈ ks, s.Known k ∧ R a (g k)

theorem Beneath.follows {s : Tree α} {g : NodeId → NodeId} {cs : List NodeId}
    (hcs : Beneath R a t f cs) (h : t.Follows X R f s g) : Beneath R a s g cs := by
  intro c hc
  obtain ⟨hknown, hR⟩ := hcs c hc
  obtain ⟨hs, hsame⟩ := h.named hknown
  exact ⟨hs, by rwa [hsame]⟩

theorem beneath_children {n : Node α} (h : t.Ranked R f) (hn : t.find? p = some n) :
    Beneath R (f p) t f n.children := fun _ hc =>
  have hc := mem_childrenOf.mpr ⟨n, hn, hc⟩
  ⟨h.known hc, h.below hc⟩

theorem ranks_write (h : t.Ranked R f) (hX : p ∈ X) {k : Node α → Node α}
    (hk : ∀ n, t.find? p = some n → Beneath R (f p) t f (k n).children) :
    (change p k).Ranks X R t f fun _ _ _ => True :=
  ranks_node h fun _ _ =>
    ⟨_, _, f, rfl, h.follows.write p (Or.inl hX) hk, fun _ _ => trivial⟩

theorem Ranks.cons {e : Edit α NodeId} {r : NodeId → Edit α (List NodeId)}
    (hc : R a (f c)) (he : e.Ranks X R t f fun s g k => s.Known k ∧ g k = f c)
    (hrest : ∀ k s g, t.Follows X R f s g → (r k).Ranks X R s g (Beneath R a)) :
    (e >>= fun k => r k >>= fun ks => pure (k :: ks)).Ranks X R t f (Beneath R a) := by
  refine he.bind fun k s g hs hk => (hrest k s g hs).bind fun ks u j hu hks => ?_
  refine ranks_pure hu.ranked (List.forall_mem_cons.mpr ⟨?_, hks⟩)
  obtain ⟨hknown, hrank⟩ := hu.named hk.1
  exact ⟨hknown, by rwa [hrank, hk.2]⟩

section Children

variable [Scalar α]

theorem copyFor_ranks (h : t.Ranked R f) (p c : NodeId) (i : Nat)
    (choose : Option (NodeId → Nat → Option Replacement)) :
    (copyFor p c i choose).Ranks X R t f fun s g k => s.Known k ∧ g k = f c := by
  cases hn : t.find? c with
  | none =>
    refine ⟨.error (.unknownNode c), t, f, ?_, h.follows, nofun⟩
    unfold copyFor
    rw [apply_bind, apply_node_none hn]
  | some n =>
    obtain ⟨m, u, hm, hu, hrun⟩ := copyFor_run (p := p) i choose hn
    have hg : t.Follows X R f u f ∧ u.childrenOf c = n.children := by
      rcases hu with rfl | ⟨e, rfl⟩
      · exact ⟨h.follows, childrenOf_eq hn⟩
      · exact ⟨h.follows.tell e, childrenOf_eq hn⟩
    have hlist : m.children ⊆ u.childrenOf c := by
      rw [hg.2]
      rcases hm with rfl | ⟨-, rfl⟩
      · exact List.Subset.refl _
      · exact List.nil_subset _
    have hput := hg.1.insert (n := { m with owner := some p, sharedCount := 0 }) hlist
    refine ⟨_, _, _, hrun, hput.share m.children, fun k hk => ?_⟩
    obtain rfl := Except.ok.inj hk
    have hnamed := insert_known hg.1.ranked.tidy { m with owner := some p, sharedCount := 0 }
    exact ⟨((hput.ranked.follows (X := ∅)).share m.children).named hnamed |>.1,
      Function.update_self ..⟩

theorem copyAll_ranks (p : NodeId) (choose : Option (NodeId → Nat → Option Replacement))
    (cs : List NodeId) (i : Nat) (h : t.Ranked R f) (hcs : Beneath R a t f cs) :
    (copyAll p choose i cs).Ranks X R t f (Beneath R a) := by
  induction cs generalizing t f i with
  | nil => exact ranks_pure h (by simp [Beneath])
  | cons c cs ih =>
    obtain ⟨hc, hcs⟩ := List.forall_mem_cons.mp hcs
    refine Ranks.cons (r := fun _ => do
      modify fun t => t.unlist p c
      copyAll p choose (i + 1) cs) hc.2 (copyFor_ranks h p c i choose) fun k s g hs => ?_
    refine (tame_unlist p c hs.ranked).bind fun _ u j hu _ => ih (i + 1) hu.ranked ?_
    exact Beneath.follows (Beneath.follows hcs hs) hu

theorem ownChildren_tame (p : NodeId) : (ownChildren p : Edit α Unit).Tame {p} := by
  intro R t f h
  refine ranks_node h fun n hn => ?_
  split
  · exact ranks_pure h trivial
  refine ranks_node h fun m _ => ?_
  split
  · exact ranks_pure h trivial
  refine (copyAll_ranks p _ _ 0 h (beneath_children h hn)).bind fun ks s g hs hks => ?_
  refine ranks_write hs.ranked (Set.mem_singleton p) fun _ _ => ?_
  rwa [(hs.named (Live.known ⟨n, hn⟩)).2]

theorem copyOthers_ranks (p c : NodeId) (choose : Option (NodeId → Nat → Option Replacement))
    (cs : List NodeId) (i : Nat) (h : t.Ranked R f) (hcs : Beneath R a t f cs) :
    (copyOthers p c choose i cs).Ranks X R t f (Beneath R a) := by
  induction cs generalizing t f i with
  | nil => exact ranks_pure h (by simp [Beneath])
  | cons d cs ih =>
    obtain ⟨hd, hcs⟩ := List.forall_mem_cons.mp hcs
    rw [copyOthers]
    split
    · refine (tame_propagateDirty p h).bind fun _ s g hs _ => ?_
      refine (tame_unlist p d hs.ranked).bind fun _ u j hu _ => ih i hu.ranked ?_
      exact Beneath.follows (Beneath.follows hcs hs) hu
    · refine Ranks.cons (r := fun _ => do
        modify fun t => t.unlist p d
        copyOthers p c choose (i + 1) cs) hd.2 (copyFor_ranks h p d i choose) fun k s g hs => ?_
      refine (tame_unlist p d hs.ranked).bind fun _ u j hu _ => ih (i + 1) hu.ranked ?_
      exact Beneath.follows (Beneath.follows hcs hs) hu

end Children

theorem mapM_ranks {e : NodeId → Edit α NodeId} (he : ∀ c t f, t.Ranked R f → t.Known c →
      (e c).Ranks X R t f fun s g k => s.Known k ∧ g k = f c) (cs : List NodeId)
    (h : t.Ranked R f) (hcs : Beneath R a t f cs) : (cs.mapM e).Ranks X R t f (Beneath R a) := by
  induction cs generalizing t f with
  | nil => exact ranks_pure h (by simp [Beneath])
  | cons c cs ih =>
    obtain ⟨hc, hcs⟩ := List.forall_mem_cons.mp hcs
    rw [List.mapM_cons]
    exact Ranks.cons hc.2 (he c t f h hc.1) fun k s g hs => ih hs.ranked (Beneath.follows hcs hs)

theorem cloneSubtree_ranks (fuel : Nat) (id : NodeId) (h : t.Ranked R f) (hid : t.Known id) :
    (cloneSubtree fuel id).Ranks Set.univ R t f fun s g k => s.Known k ∧ g k = f id := by
  induction fuel generalizing t f id with
  | zero => exact ranks_pure h ⟨hid, rfl⟩
  | succ fuel ih =>
    rw [cloneSubtree_succ]
    refine ranks_node h fun n hn => ?_
    -- The copy lists nothing as long as the children are copied.
    have hput := (h.follows (X := Set.univ)).insert (c := id)
      (n := { n with owner := none, sharedCount := 0, children := [] }) (List.nil_subset _)
    refine Ranks.bind (Q := fun s g k => s.Known k ∧ g k = f id)
      ⟨_, _, _, apply_insert _, hput, fun k hk => ?_⟩ fun copy s g hs hcopy => ?_
    · obtain rfl := Except.ok.inj hk
      exact ⟨insert_known h.tidy _, Function.update_self ..⟩
    refine (mapM_ranks (e := cloneChild fuel copy) (fun c t f h hc => ?_) n.children hs.ranked
      (Beneath.follows (beneath_children h hn) hs)).bind fun ks u j hu hks => ?_
    · refine (ih c h hc).bind fun k s g hs hk => ?_
      refine Ranks.bind (tame_change k ?_ hs.ranked) fun _ u j hu _ => ?_
      · exact fun _ => rfl
      obtain ⟨hknown, hrank⟩ := hu.named hk.1
      exact ranks_pure hu.ranked ⟨hknown, hrank.trans hk.2⟩
    · obtain ⟨hknown, hrank⟩ := hu.named hcopy.1
      refine (ranks_write hu.ranked (Set.mem_univ copy) fun _ _ => ?_).bind fun _ v i hv _ => ?_
      · rwa [hrank, hcopy.2]
      obtain ⟨hknown', hrank'⟩ := hv.named hknown
      exact ranks_pure hv.ranked ⟨hknown', by rw [hrank', hrank, hcopy.2]⟩

end Edit

end Flexbox
