import Flexbox.Proofs.Copying

namespace Flexbox

variable {α : Type}

namespace Tree

variable {t : Tree α} {p : NodeId} {cs : List NodeId}

theorem soilChain_keeps {P : Tree α → Prop}
    (hu : ∀ t id, P t → P (t.update id fun n =>
      { n with isDirty := true, geometry := { n.geometry with flexBasis := .undefined } }))
    (ht : ∀ t e, P t → P (t.tell e)) (fuel : Nat) (o : Option NodeId) (h : P t) :
    P (t.soilChain fuel o) := by
  induction fuel generalizing o t with
  | zero => simpa [soilChain] using h
  | succ fuel ih =>
    cases o with
    | none => simpa [soilChain] using h
    | some id =>
      rw [soilChain]
      cases t.find? id with
      | none => exact h
      | some n =>
        dsimp only
        split
        · exact h
        · refine ih _ ?_
          unfold soil
          cases n.dirtied with
          | none => exact hu t id h
          | some label => exact ht _ _ (hu t id h)

theorem map_find?_soilUpwards {β : Type} {g : Node α → β} (hg : ∀ n : Node α, g n.soiled = g n)
    (t : Tree α) (id x : NodeId) :
    ((t.soilUpwards id).find? x).map g = (t.find? x).map g := by
  refine soilChain_keeps (P := fun s => (s.find? x).map g = (t.find? x).map g) ?_
    (fun _ _ hs => hs) _ _ rfl
  intro s y hs
  exact (map_find?_update (fun n _ => hg n) x).trans hs

theorem soilUpwards_config (t : Tree α) (id : NodeId) : (t.soilUpwards id).config = t.config :=
  soilChain_keeps (P := fun s => s.config = t.config) (fun _ _ hs => hs) (fun _ _ hs => hs) _ _ rfl

theorem Balanced.soilUpwards (h : t.Balanced) (id : NodeId) : (t.soilUpwards id).Balanced :=
  soilChain_keeps (fun _ x hs => hs.update x (by intros; rfl) (by intros; rfl) (by intros; rfl))
    (fun _ e hs => hs.tell e) _ _ h

theorem Sound.soilUpwards (h : t.Sound) (id : NodeId) : (t.soilUpwards id).Sound :=
  soilChain_keeps (fun _ x hs => hs.update x fun _ _ => ⟨rfl, rfl, rfl, Or.inl, fun hn => hn⟩)
    (fun _ e hs => hs.tell e) _ _ h

theorem Pending.soilUpwards (h : t.Pending p cs) (id : NodeId) :
    (t.soilUpwards id).Pending p cs ∧ (t.soilUpwards id).ownerOf = t.ownerOf ∧
      (t.soilUpwards id).childrenOf = t.childrenOf ∧
      ∀ x, (t.soilUpwards id).Live x ↔ t.Live x := by
  refine soilChain_keeps (P := fun s => s.Pending p cs ∧ s.ownerOf = t.ownerOf ∧
    s.childrenOf = t.childrenOf ∧ ∀ x, s.Live x ↔ t.Live x) ?_ ?_ _ _
    ⟨h, rfl, rfl, fun _ => Iff.rfl⟩
  · rintro s x ⟨hs, ho, hc, hl⟩
    refine ⟨hs.update x fun _ _ => ⟨rfl, rfl, rfl, Or.inl, fun hn => hn⟩, ?_, ?_, fun y => ?_⟩
    · rw [ownerOf_update (by intros; rfl), ho]
    · rw [childrenOf_update (by intros; rfl), hc]
    · rw [live_update, hl]
  · rintro s e ⟨hs, ho, hc, hl⟩
    exact ⟨hs.tell e, ho, hc, hl⟩

/-- The node becomes dirty and lets go of the first child, which it does not own. -/
theorem Pending.drop_step {done : List NodeId} (h : t.Pending p (c :: cs ++ done)) (hp : t.Live p)
    (hc : t.owns p c = false) :
    ((t.soilUpwards p).unlist p c).Pending p (cs ++ done) ∧
      (∀ d, ((t.soilUpwards p).unlist p c).owns p d = t.owns p d) ∧
      ((t.soilUpwards p).unlist p c).childrenOf p = t.childrenOf p ∧
      ((t.soilUpwards p).unlist p c).Live p := by
  obtain ⟨hsoil, hso, hsc, hsl⟩ := h.soilUpwards p
  have hne : t.ownerOf c ≠ some p := by simpa [owns] using hc
  have hstep := hsoil.unlist (c := c) (by simp)
  rw [List.cons_append, List.erase_cons_head] at hstep
  refine ⟨hstep, fun d => ?_, by rw [childrenOf_unlist, hsc], live_update.mpr ((hsl p).mpr hp)⟩
  simp only [owns, ownerOf_unlist, hso]
  split
  · rename_i hdo
    exact absurd (hdo.1 ▸ hdo.2) hne
  · rfl

end Tree

namespace Tree

variable {t s : Tree α} {E F : Set NodeId} {id p c x : NodeId} {n : Node α}

def markOf (t : Tree α) (id : NodeId) : Option Bool := (t.find? id).map Node.isDirty

def Dirty (t : Tree α) (id : NodeId) : Prop := t.markOf id = some true

def Clean (t : Tree α) (id : NodeId) : Prop := t.markOf id = some false

instance (t : Tree α) (id : NodeId) : Decidable (t.Dirty id) :=
  inferInstanceAs (Decidable (t.markOf id = some true))

/-- No clean node owns a dirty one, but for the owners in `E`. -/
def Upward (E : Set NodeId) (t : Tree α) : Prop :=
  ∀ c p, t.ownerOf c = some p → t.Dirty c → t.Clean p → p ∈ E

theorem markOf_eq (hn : t.find? x = some n) : t.markOf x = some n.isDirty := by
  simp [markOf, hn]

theorem dirty_iff (hn : t.find? x = some n) : t.Dirty x ↔ n.isDirty = true := by
  simp [Dirty, markOf_eq hn]

theorem clean_iff (hn : t.find? x = some n) : t.Clean x ↔ n.isDirty = false := by
  simp [Clean, markOf_eq hn]

theorem Clean.not_dirty (h : t.Clean x) : ¬ t.Dirty x := by
  simp_all [Clean, Dirty]

theorem Live.dirty_of_not_clean (hl : t.Live x) (h : ¬ t.Clean x) : t.Dirty x := by
  obtain ⟨n, hn⟩ := hl
  rw [clean_iff hn] at h
  simpa [dirty_iff hn] using h

theorem Arena.owner_live (h : t.Arena) (ho : t.ownerOf c = some p) : t.Live p :=
  h.accounted.lister_live (h.mem_of_ownerOf ho)

theorem Arena.upward_iff (ht : t.Arena) :
    t.Upward ∅ ↔ ∀ c p, t.ownerOf c = some p → t.Dirty c → t.Dirty p := by
  refine ⟨fun hu c p ho hc => ?_, fun hall c p ho hc hp => ?_⟩
  · exact (ht.owner_live ho).dirty_of_not_clean fun hp => hu c p ho hc hp
  · exact hp.not_dirty (hall c p ho hc)

theorem Upward.mono (hu : t.Upward E) (h : E ⊆ F) : t.Upward F :=
  fun c p ho hc hp => h (hu c p ho hc hp)

theorem Upward.discharge (hu : t.Upward ({p} ∪ E)) (hp : ¬ t.Clean p) : t.Upward E := by
  intro c q ho hc hq
  rcases hu c q ho hc hq with rfl | hq
  · exact absurd hq hp
  · exact hq

theorem Upward.congr (hu : t.Upward E) (hm : s.markOf = t.markOf) (ho : s.ownerOf = t.ownerOf) :
    s.Upward E := by
  unfold Upward Dirty Clean
  rw [hm, ho]
  exact hu

theorem upward_congr (hm : s.markOf = t.markOf) (ho : s.ownerOf = t.ownerOf) :
    s.Upward E ↔ t.Upward E :=
  ⟨fun hs => hs.congr hm.symm ho.symm, fun hu => hu.congr hm ho⟩

theorem markOf_update {f : Node α → Node α}
    (hf : ∀ n, t.find? id = some n → (f n).isDirty = n.isDirty) :
    (t.update id f).markOf = t.markOf :=
  funext (map_find?_update hf)

section

variable (hu : t.Upward E)

include hu

theorem Upward.update (id : NodeId) {f : Node α → Node α}
    (hf : ∀ n, t.find? id = some n → (f n).isDirty = n.isDirty)
    (ho : ∀ n p, t.find? id = some n → (f n).owner = some p → n.owner = some p ∨ p ∈ E) :
    (t.update id f).Upward E := by
  intro c p hc hdirty hclean
  rw [Dirty, markOf_update hf] at hdirty
  rw [Clean, markOf_update hf] at hclean
  rw [ownerOf, find?_update] at hc
  split at hc
  · rename_i hx
    subst hx
    obtain ⟨m, hm, hp⟩ := Option.bind_eq_some_iff.mp hc
    obtain ⟨n, hn, rfl⟩ := Option.map_eq_some_iff.mp hm
    rcases ho n p hn hp with hp | hp
    · exact hu c p (by rw [ownerOf_eq hn, hp]) hdirty hclean
    · exact hp
  · exact hu c p hc hdirty hclean

theorem Upward.tell (e : Event α) : (t.tell e).Upward E := hu

theorem Upward.unlist (p c : NodeId) : (t.unlist p c).Upward E := by
  refine hu.update c (fun n _ => ?_) fun n q _ hq => ?_
  · split <;> rfl
  · split at hq
    · cases hq
    · exact Or.inl hq

theorem Upward.share (cs : List NodeId) : (t.share cs).Upward E :=
  List.foldlRecOn cs _ hu fun _ hu c _ => hu.update c (by intros; rfl) fun _ _ _ ho => Or.inl ho

theorem Upward.erase (id : NodeId) : (t.erase id).Upward E := by
  have hback : ∀ {x n}, (t.erase id).find? x = some n → t.find? x = some n := by
    intro x n hn
    rw [find?_erase] at hn
    split at hn
    · cases hn
    · exact hn
  intro c p ho hc hp
  obtain ⟨n, hn, ho⟩ := Option.bind_eq_some_iff.mp ho
  obtain ⟨m, hm, hclean⟩ := Option.map_eq_some_iff.mp hp
  rw [dirty_iff hn] at hc
  exact hu c p (by rw [ownerOf_eq (hback hn), ho]) ((dirty_iff (hback hn)).mpr hc)
    ((clean_iff (hback hm)).mpr hclean)

/-- Nodes may come in: the old ones keep their marks, and each of the new ones is clean, has no
clean owner, or has one that is excepted. -/
theorem Upward.grow (hlive : ∀ c p, t.ownerOf c = some p → t.Live p)
    (hold : ∀ x, t.Live x → s.markOf x = t.markOf x ∧ ∀ p, s.ownerOf x = some p → t.ownerOf x =
      some p ∨ p ∈ E)
    (hnew : ∀ x p, ¬ t.Live x → s.ownerOf x = some p → s.Dirty x → s.Clean p → p ∈ E) :
    s.Upward E := by
  intro c p ho hc hp
  by_cases hl : t.Live c
  · obtain ⟨hmark, howner⟩ := hold c hl
    rcases howner p ho with ho | hpE
    · rw [Dirty, hmark] at hc
      rw [Clean, (hold p (hlive c p ho)).1] at hp
      exact hu c p ho hc hp
    · exact hpE
  · exact hnew c p hl ho hc hp

theorem Upward.grow_owned {p : NodeId} (hlive : ∀ c p, t.ownerOf c = some p → t.Live p)
    (hold : ∀ x, t.Live x → s.markOf x = t.markOf x ∧ s.ownerOf x = t.ownerOf x)
    (hnew : ∀ x, s.Live x → ¬ t.Live x → s.owns p x = true) (hp : p ∈ E) : s.Upward E := by
  refine hu.grow hlive (fun x hx => ⟨(hold x hx).1, fun q hq => Or.inl ?_⟩) fun x q hx hq _ _ => ?_
  · rwa [← (hold x hx).2]
  · obtain ⟨n, hn, -⟩ := Option.bind_eq_some_iff.mp hq
    have hown := hnew x ⟨n, hn⟩ hx
    rw [owns, hq, beq_iff_eq] at hown
    rwa [Option.some.inj hown]

end

def unmarked (t : Tree α) : Finset NodeId := t.ids.toFinset.filter fun x => t.markOf x = some false

theorem mem_unmarked : x ∈ t.unmarked ↔ t.Clean x := by
  simp only [unmarked, Finset.mem_filter, List.mem_toFinset, mem_ids, Clean, and_iff_right_iff_imp]
  intro h
  obtain ⟨n, hn, -⟩ := Option.map_eq_some_iff.mp h
  exact ⟨n, hn⟩

theorem unmarked_card_le (t : Tree α) : t.unmarked.card ≤ t.slots.size :=
  calc t.unmarked.card
      ≤ t.ids.toFinset.card := Finset.card_filter_le _ _
    _ ≤ t.ids.length := List.toFinset_card_le _
    _ ≤ t.slots.toList.zipIdx.length := List.length_filterMap_le _ _
    _ = t.slots.size := by simp

theorem find?_soil (t : Tree α) (id : NodeId) (n : Node α) (x : NodeId) :
    (t.soil id n).find? x = (t.update id Node.soiled).find? x := by
  unfold soil
  cases n.dirtied <;> rfl

theorem markOf_soil (hn : t.find? id = some n) (x : NodeId) :
    (t.soil id n).markOf x = if x = id then some true else t.markOf x := by
  rw [markOf, find?_soil, find?_update]
  split
  · rename_i hx
    simp [hx, hn, Node.soiled]
  · rfl

theorem ownerOf_soil (t : Tree α) (id : NodeId) (n : Node α) :
    (t.soil id n).ownerOf = t.ownerOf := by
  have he : (t.soil id n).ownerOf = (t.update id Node.soiled).ownerOf := by
    funext x
    simp only [ownerOf, find?_soil]
  rw [he]
  exact ownerOf_update (by intros; rfl)

theorem unmarked_soil (hn : t.find? id = some n) (hc : n.isDirty = false) :
    (t.soil id n).unmarked.card < t.unmarked.card := by
  refine Finset.card_lt_card ⟨fun x hx => ?_, fun hsub => ?_⟩
  · rw [mem_unmarked, Clean, markOf_soil hn] at hx
    split at hx
    · cases hx
    · exact mem_unmarked.mpr hx
  · have hid := hsub (mem_unmarked.mpr ((clean_iff hn).mpr hc))
    rw [mem_unmarked, Clean, markOf_soil hn, if_pos rfl] at hid
    cases hid

theorem Upward.soil (hu : t.Upward {q | q = id ∨ q ∈ E}) (hn : t.find? id = some n) :
    (t.soil id n).Upward {q | n.owner = some q ∨ q ∈ E} := by
  intro c p ho hc hp
  rw [ownerOf_soil] at ho
  rw [Clean, markOf_soil hn] at hp
  split at hp
  · cases hp
  rename_i hpid
  rw [Dirty, markOf_soil hn] at hc
  split at hc
  · rename_i hcid
    rw [hcid, ownerOf_eq hn] at ho
    exact Or.inl ho
  · exact Or.inr ((hu c p ho hc hp).resolve_left hpid)

theorem Upward.soilChain {o : Option NodeId} {fuel : Nat}
    (hu : t.Upward {q | o = some q ∨ q ∈ E}) (hf : t.unmarked.card < fuel) :
    (t.soilChain fuel o).Upward E := by
  induction fuel generalizing t o with
  | zero => omega
  | succ fuel ih =>
    cases o with
    | none =>
      simp only [reduceCtorEq, false_or, Set.ofPred_mem_eq] at hu
      simpa [Tree.soilChain] using hu
    | some id =>
      rw [Tree.soilChain]
      cases hn : t.find? id with
      | none =>
        intro c p ho hc hp
        rcases hu c p ho hc hp with he | hp'
        · cases he
          simp [Clean, markOf, hn] at hp
        · exact hp'
      | some n =>
        dsimp only
        split
        · rename_i hd
          intro c p ho hc hp
          rcases hu c p ho hc hp with he | hp'
          · cases he
            exact absurd ((dirty_iff hn).mpr hd) hp.not_dirty
          · exact hp'
        · rename_i hd
          have hlt := unmarked_soil hn (by simpa using hd)
          refine ih (Upward.soil ?_ hn) (by omega)
          simpa [eq_comm] using hu

theorem Upward.soilUpwards (hu : t.Upward ({id} ∪ E)) : (t.soilUpwards id).Upward E := by
  refine Upward.soilChain ?_ (Nat.lt_succ_of_le t.unmarked_card_le)
  simpa [Set.insert_def, eq_comm] using hu

theorem Upward.soilUpwards_keeps (hu : t.Upward E) (id : NodeId) : (t.soilUpwards id).Upward E :=
  Upward.soilUpwards (hu.mono fun _ hq => Or.inr hq)

theorem soilUpwards_dirty (hn : t.find? id = some n) (hd : n.isDirty = true) :
    t.soilUpwards id = t := by
  simp [Tree.soilUpwards, Tree.soilChain, hn, hd]

theorem Upward.soilUpwards_owner (hu : t.Upward ({p} ∪ E)) (hn : t.find? id = some n)
    (hc : n.isDirty = false) (ho : n.owner = some p) : (t.soilUpwards id).Upward E := by
  have hlt := unmarked_soil hn hc
  have hle := t.unmarked_card_le
  have hsoil : (t.soil id n).Upward {q | n.owner = some q ∨ q ∈ E} := by
    have hu' : t.Upward {q | q = id ∨ q ∈ ({p} ∪ E : Set NodeId)} := hu.mono fun _ hq => Or.inr hq
    refine (hu'.soil hn).mono fun q hq => ?_
    rcases hq with hq | rfl | hq
    · exact Or.inl hq
    · exact Or.inl ho
    · exact Or.inr hq
  have hfuel : (t.soil id n).unmarked.card < t.slots.size := by omega
  rw [Tree.soilUpwards, Tree.soilChain, hn]
  simpa [hc] using hsoil.soilChain hfuel

end Tree

namespace Tree

variable {t s : Tree α} {E : Set NodeId} {id p c x : NodeId} {n : Node α}
  {cs ks : List NodeId}

theorem Dirty.soilChain (h : t.Dirty x) (fuel : Nat) (o : Option NodeId) :
    (t.soilChain fuel o).Dirty x := by
  refine soilChain_keeps (P := fun t => t.Dirty x) (fun t id ht => ?_) (fun _ _ ht => ht) fuel o h
  obtain ⟨n, hn, hd⟩ := Option.map_eq_some_iff.mp ht
  rw [Dirty, markOf, find?_update, hn]
  split
  · rfl
  · simp [hd]

theorem dirty_soilUpwards (hl : t.Live id) : (t.soilUpwards id).Dirty id := by
  obtain ⟨n, hn⟩ := hl
  rw [soilUpwards, soilChain, hn]
  dsimp only
  split
  · rename_i hd
    exact (dirty_iff hn).mpr hd
  · refine Dirty.soilChain ?_ _ _
    rw [Dirty, markOf_soil hn, if_pos rfl]

theorem Recounts.markOf (h : t.Recounts s) (hx : t.Live x) : s.markOf x = t.markOf x := by
  obtain ⟨n, hn⟩ := hx
  obtain ⟨j, hj⟩ := h x n hn
  rw [markOf_eq hn, markOf_eq hj]

theorem Pending.owner_live (h : t.Pending p cs) (ho : t.ownerOf c = some x) : t.Live x := by
  obtain ⟨n, hn, ho⟩ := Option.bind_eq_some_iff.mp ho
  exact h.books.lister_live (h.books.owner hn ho)

theorem Privatized.markOf (h : t.Privatized p s) (hx : t.Live x) : s.markOf x = t.markOf x := by
  obtain ⟨n, hn⟩ := hx
  by_cases hxp : x = p
  · subst hxp
    obtain ⟨ks, j, hk, -⟩ := h.self n hn
    rw [markOf_eq hn, markOf_eq hk]
  · obtain ⟨j, hj⟩ := h.other x n hxp hn
    rw [markOf_eq hn, markOf_eq hj]

theorem Privatized.upward (h : t.Privatized p s) (ht : t.Arena) (hu : t.Upward E) (hp : p ∈ E) :
    s.Upward E :=
  hu.grow_owned (fun _ _ ho => ht.owner_live ho) (fun _ hx => ⟨h.markOf hx, h.ownerOf hx⟩)
    (fun x hl hx => h.owned x ((h.new x hl).resolve_left hx)) hp

theorem Upward.enter (hu : t.Upward E) (ht : t.Arena) (ho : n.owner = none) :
    (t.insert n).2.Upward E := by
  have hfind := ht.tidy.find?_insert n
  have hfresh := not_live.mpr (ht.tidy.insert_fresh n)
  refine hu.grow (fun _ _ ho => ht.owner_live ho) (fun x hx => ?_) fun x p hx hp => ?_
  · have hne : x ≠ (t.insert n).1 := fun he => hfresh (he ▸ hx)
    rw [markOf, ownerOf, hfind, if_neg hne]
    exact ⟨rfl, fun _ hp => Or.inl hp⟩
  · rw [ownerOf, hfind] at hp
    split at hp
    · simp [ho] at hp
    · rw [not_live.mp hx] at hp
      cases hp

end Tree

end Flexbox
