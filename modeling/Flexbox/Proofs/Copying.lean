import Flexbox.Proofs.Links

namespace Flexbox

variable {α : Type}

theorem exists_of_forall₂ {β γ : Type} {R : β → γ → Prop} {xs : List β} {ys : List γ} {y : γ}
    (h : List.Forall₂ R xs ys) (hy : y ∈ ys) : ∃ x ∈ xs, R x y := by
  induction h with
  | nil => cases hy
  | cons hd _ ih =>
    rcases List.mem_cons.mp hy with rfl | hy
    · exact ⟨_, by simp, hd⟩
    · obtain ⟨x, hx, hr⟩ := ih hy
      exact ⟨x, by simp [hx], hr⟩

namespace Tree

variable {t s u : Tree α} {p c k : NodeId} {cs ks : List NodeId} {x : NodeId}
  {done : List NodeId} {n : Node α}

/-- The nodes of `t` are in `s` as they were, up to the number of nodes that share them. -/
def Recounts (t s : Tree α) : Prop :=
  ∀ x n, t.find? x = some n → ∃ j, s.find? x = some { n with sharedCount := j }

/-- `k` names in `s` what `c` named in `t`, as a child of `p`. -/
def Copied (t : Tree α) (p : NodeId) (s : Tree α) (c k : NodeId) : Prop :=
  ∃ n j, t.find? c = some n ∧ s.find? k = some { n with owner := some p, sharedCount := j }

theorem Recounts.refl (t : Tree α) : t.Recounts t := fun _ n hn => ⟨n.sharedCount, hn⟩

section

variable (h : t.Recounts s)

include h

theorem Recounts.trans (h' : s.Recounts u) : t.Recounts u := by
  intro x n hn
  obtain ⟨j, hj⟩ := h x n hn
  obtain ⟨i, hi⟩ := h' x _ hj
  exact ⟨i, hi⟩

theorem Recounts.live (hx : t.Live x) : s.Live x := by
  obtain ⟨n, hn⟩ := hx
  obtain ⟨j, hj⟩ := h _ n hn
  exact ⟨_, hj⟩

theorem Recounts.ownerOf (hx : t.Live x) : s.ownerOf x = t.ownerOf x := by
  obtain ⟨n, hn⟩ := hx
  obtain ⟨j, hj⟩ := h _ n hn
  rw [ownerOf_eq hn, ownerOf_eq hj]

theorem Recounts.childrenOf (hx : t.Live x) : s.childrenOf x = t.childrenOf x := by
  obtain ⟨n, hn⟩ := hx
  obtain ⟨j, hj⟩ := h _ n hn
  rw [childrenOf_eq hn, childrenOf_eq hj]

theorem Recounts.owns {q : NodeId} (hx : t.Live x) : s.owns q x = t.owns q x := by
  simp [Tree.owns, h.ownerOf hx]

end

theorem recounts_withCopy (h : t.Tidy) (hn : ∀ c ∈ n.children, t.Live c) :
    t.Recounts (t.withCopy p n) := by
  intro x m hm
  have hx : x ≠ t.copyName p n := fun he => copyName_fresh h p n (he ▸ ⟨m, hm⟩)
  exact ⟨m.sharedCount + n.children.count x, by rw [find?_withCopy h hn, if_neg hx, hm]; rfl⟩

theorem recounts_unlist (hc : t.owns p c = false) : t.Recounts (t.unlist p c) := by
  intro x n hn
  rw [find?_unlist]
  split
  · rename_i hx
    subst hx
    have ho : n.isOwnedBy p = false := by rwa [owns_eq hn] at hc
    exact ⟨n.sharedCount - 1, by simp [hn, ho]⟩
  · exact ⟨n.sharedCount, hn⟩

theorem Balancing.stand_in {m : Node α} (h : t.Balancing p (c :: cs ++ done)) (hp : t.Live p)
    (hcl : t.Live c) (hd : m.children.Nodup) (hlive : ∀ x ∈ m.children, t.Live x)
    (hc : t.owns p c = false) :
    ((t.withCopy p m).unlist p c).Balancing p (cs ++ (done ++ [t.copyName p m])) ∧
      t.Recounts ((t.withCopy p m).unlist p c) ∧
      (∃ j, ((t.withCopy p m).unlist p c).find? (t.copyName p m) =
        some { m with owner := some p, sharedCount := j }) ∧
      ∀ x, ((t.withCopy p m).unlist p c).Live x → t.Live x ∨ x = t.copyName p m := by
  have htidy := h.books.tidy
  have hfresh := copyName_fresh htidy p m
  have hfind := fun x => find?_withCopy (p := p) htidy hlive x
  have hck : c ≠ t.copyName p m := fun he => hfresh (he ▸ hcl)
  have hrec : t.Recounts (t.withCopy p m) := recounts_withCopy htidy hlive
  have hown : (t.withCopy p m).owns p c = false := by rw [hrec.owns hcl, hc]
  have hrec' := recounts_unlist hown
  refine ⟨?_, hrec.trans hrec', ?_, ?_⟩
  · have hcopy := (h.enter hp hd hlive).unlist (c := c) (by simp)
    refine hcopy.perm ?_
    have he : (t.copyName p m :: (c :: cs ++ done)).erase c = t.copyName p m :: (cs ++ done) := by
      simp [Ne.symm hck]
    rw [he, ← List.append_assoc]
    exact List.perm_append_singleton _ _
  · exact hrec' (t.copyName p m) _ (by rw [hfind, if_pos rfl])
  · intro x hx
    obtain ⟨k, hk⟩ := live_update.mp hx
    rw [hfind] at hk
    split at hk
    · rename_i he
      exact Or.inr he
    · obtain ⟨k', hk', -⟩ := Option.map_eq_some_iff.mp hk
      exact Or.inl ⟨k', hk'⟩

theorem Pending.copy_step (h : t.Pending p (c :: cs ++ done)) (hp : t.Live p)
    (hn : t.find? c = some n) (hc : t.owns p c = false) :
    ((t.withCopy p n).unlist p c).Pending p (cs ++ (done ++ [t.copyName p n])) ∧
      t.Recounts ((t.withCopy p n).unlist p c) ∧
      ((t.withCopy p n).unlist p c).owns p (t.copyName p n) = true ∧
      ∀ x, ((t.withCopy p n).unlist p c).Live x → t.Live x ∨ x = t.copyName p n := by
  have hcopy := (h.copy hp hn).unlist (c := c) (by simp)
  obtain ⟨hb, hrec, ⟨j, hj⟩, hnew⟩ := h.toBalancing.stand_in hp ⟨n, hn⟩
    (h.children_nodup hn) (h.children_live hn) hc
  exact ⟨hb.pending hcopy.leaf hcopy.hookless, hrec, by simp [owns, ownerOf_eq hj], hnew⟩

end Tree

namespace Tree

variable [Scalar α] {t s u : Tree α} {p c k : NodeId} {cs ks : List NodeId}
  {asked : Bool}

/-- `k` names in `s` what stands for the node `c` of `t` as a child of `p`: a copy, or a new node if
the host was asked and wants one. -/
def StandsFor (t : Tree α) (asked : Bool) (p : NodeId) (s : Tree α) (c k : NodeId) : Prop :=
  ∃ n m j, t.find? c = some n ∧ (m = n ∨ asked = true ∧ m = Node.new n.config) ∧
    s.find? k = some { m with owner := some p, sharedCount := j }

/-- `s` is `t` with nodes `ks` that stand for the nodes `cs` as children of `p`. -/
structure Staffing (t : Tree α) (asked : Bool) (p : NodeId) (cs ks : List NodeId)
    (s : Tree α) : Prop where
  recounts : t.Recounts s
  standIns : List.Forall₂ (t.StandsFor asked p s) cs ks
  fresh : ∀ k ∈ ks, ¬ t.Live k
  new : ∀ x, s.Live x → t.Live x ∨ x ∈ ks
  config : s.config = t.config

theorem StandsFor.recounts_left (h : t.Recounts s) (hc : t.Live c)
    (h' : s.StandsFor asked p u c k) : t.StandsFor asked p u c k := by
  obtain ⟨n, hn⟩ := hc
  obtain ⟨j, hj⟩ := h _ n hn
  obtain ⟨m', m, i, hm', hm, hk⟩ := h'
  obtain rfl : { n with sharedCount := j } = m' := Option.some.inj (hj.symm.trans hm')
  rcases hm with rfl | ⟨ha, rfl⟩
  · exact ⟨n, n, i, hn, Or.inl rfl, hk⟩
  · exact ⟨n, _, i, hn, Or.inr ⟨ha, rfl⟩, hk⟩

theorem Staffing.cons (hcs : ∀ d ∈ c :: cs, t.Live d) (hrec : t.Recounts s)
    (hk : t.StandsFor asked p s c k) (hfresh : ¬ t.Live k)
    (hnew : ∀ x, s.Live x → t.Live x ∨ x = k) (hcfg : s.config = t.config)
    (h : s.Staffing asked p cs ks u) : t.Staffing asked p (c :: cs) (k :: ks) u := by
  obtain ⟨n, m, j, hn, hm, hk⟩ := hk
  obtain ⟨i, hi⟩ := h.recounts _ _ hk
  refine ⟨hrec.trans h.recounts, List.Forall₂.cons ⟨n, m, i, hn, hm, hi⟩ ?_, ?_, ?_,
    h.config.trans hcfg⟩
  · obtain ⟨hlen, hzip⟩ := List.forall₂_iff_zip.mp h.standIns
    refine List.forall₂_iff_zip.mpr ⟨hlen, fun {d k} hdk => ?_⟩
    exact (hzip hdk).recounts_left hrec (hcs d (by simp [(List.of_mem_zip hdk).1]))
  · intro x hx
    rcases List.mem_cons.mp hx with rfl | hx
    · exact hfresh
    · exact fun hl => h.fresh x hx (hrec.live hl)
  · intro x hx
    rcases h.new x hx with hx | hx
    · rcases hnew x hx with hx | rfl
      · exact Or.inl hx
      · exact Or.inr (by simp)
    · exact Or.inr (by simp [hx])

end Tree

namespace Edit

variable [Scalar α] {t : Tree α} {p c : NodeId} {n : Node α}

theorem apply_copyFor (i : Nat) (hn : t.find? c = some n) :
    (copyFor p c i none).apply t = (.ok (t.copyName p n), t.withCopy p n) := by
  simp [copyFor, apply_bind, apply_node hn, Except.map, Tree.copyName, Tree.withCopy]

theorem copyFor_run (i : Nat) (choose : Option (NodeId → Nat → Option Replacement))
    (hn : t.find? c = some n) :
    ∃ m u, (m = n ∨ choose.isSome = true ∧ m = Node.new n.config) ∧
      (u = t ∨ ∃ e, u = t.tell e) ∧
      (copyFor p c i choose).apply t = (.ok (u.copyName p m), u.withCopy p m) := by
  cases choose with
  | none => exact ⟨n, t, Or.inl rfl, Or.inl rfl, apply_copyFor i hn⟩
  | some f =>
    cases hf : f p i with
    | none =>
      refine ⟨n, t.tell (.copied p i), Or.inl rfl, Or.inr ⟨_, rfl⟩, ?_⟩
      simp [copyFor, apply_bind, apply_node hn, hf, Except.map, Tree.copyName, Tree.withCopy]
    | some r =>
      cases r with
      | copy =>
        refine ⟨n, t.tell (.copied p i), Or.inl rfl, Or.inr ⟨_, rfl⟩, ?_⟩
        simp [copyFor, apply_bind, apply_node hn, hf, Except.map, Tree.copyName, Tree.withCopy]
      | fresh =>
        refine ⟨Node.new n.config, t.tell (.copied p i), Or.inr ⟨rfl, rfl⟩, Or.inr ⟨_, rfl⟩, ?_⟩
        simp [copyFor, apply_bind, apply_node hn, hf, Except.map, Tree.copyName, Tree.withCopy]

theorem copyAll_run (cs : List NodeId) {done : List NodeId} (i : Nat)
    (choose : Option (NodeId → Nat → Option Replacement)) (h : t.Balancing p (cs ++ done))
    (hp : t.Live p) (hc : ∀ c ∈ cs, t.owns p c = false) :
    ∃ ks s, (copyAll p choose i cs).apply t = (.ok ks, s) ∧ s.Balancing p (done ++ ks) ∧
      t.Staffing choose.isSome p cs ks s := by
  induction cs generalizing t done i with
  | nil =>
    refine ⟨[], t, rfl, by simpa using h, Tree.Recounts.refl t, List.Forall₂.nil, by simp, ?_, rfl⟩
    exact fun x hx => Or.inl hx
  | cons c cs ih =>
    have hlive : ∀ d ∈ c :: cs, t.Live d := fun d hd => h.listed_live (List.mem_append_left _ hd)
    obtain ⟨n, hn⟩ := hlive c (by simp)
    obtain ⟨m, u, hm, hu, hone⟩ := copyFor_run (p := p) i choose hn
    -- What the host is told is not seen in the store.
    have hsame : u.Balancing p (c :: cs ++ done) ∧ (∀ x, u.find? x = t.find? x) ∧
        u.config = t.config := by
      rcases hu with rfl | ⟨e, rfl⟩
      · exact ⟨h, fun _ => rfl, rfl⟩
      · exact ⟨h.tell e, fun _ => rfl, rfl⟩
    obtain ⟨hub, hfind, hcfg⟩ := hsame
    have hlu : ∀ {x}, u.Live x ↔ t.Live x := by simp [Tree.Live, hfind]
    have hou : ∀ q x, u.owns q x = t.owns q x := by simp [Tree.owns, Tree.ownerOf, hfind]
    have hru : t.Recounts u := fun x n hn => ⟨n.sharedCount, by rw [hfind]; exact hn⟩
    have hmc : m.children = n.children ∨ m.children = [] := by
      rcases hm with rfl | ⟨-, rfl⟩
      · exact Or.inl rfl
      · exact Or.inr rfl
    have hmd : m.children.Nodup := by
      rcases hmc with he | he <;> rw [he]
      · exact h.children_nodup hn
      · exact List.nodup_nil
    have hml : ∀ x ∈ m.children, u.Live x := by
      intro x hx
      rcases hmc with he | he <;> rw [he] at hx
      · exact hlu.mpr (h.children_live hn x hx)
      · cases hx
    obtain ⟨hstep, hrec, hfound, hnew⟩ := hub.stand_in (hlu.mpr hp) (hlu.mpr ⟨n, hn⟩) hmd hml
      (by rw [hou]; exact hc c (by simp))
    have hrec := hru.trans hrec
    obtain ⟨ks, s, hrun, hpend, hrest⟩ := ih (i + 1) hstep (hrec.live hp) fun d hd => by
      rw [hrec.owns (hlive d (by simp [hd])), hc d (by simp [hd])]
    obtain ⟨j, hj⟩ := hfound
    refine ⟨u.copyName p m :: ks, s, ?_, by simpa using hpend, ?_⟩
    · simp [copyAll, apply_bind, hone, hrun, Except.map]
    · refine Tree.Staffing.cons hlive hrec ⟨n, m, j, hn, hm, hj⟩ ?_ (fun x hx => ?_) ?_ hrest
      · exact fun hl => Tree.copyName_fresh hub.books.tidy p m (hlu.mpr hl)
      · exact (hnew x hx).imp hlu.mp id
      · exact (Tree.withCopy_config u p m).trans hcfg

end Edit

namespace Tree

variable {t s : Tree α} {p : NodeId} {ks cs : List NodeId} {x : NodeId}
  {R : NodeId → NodeId → Prop}

/-- `s` is `t` after `p` has been given other children, which `R` leads to from those it had. -/
structure Rehoused (R : NodeId → NodeId → Prop) (t : Tree α) (p : NodeId) (s : Tree α) : Prop where
  self : ∀ n, t.find? p = some n → ∃ ks j,
    s.find? p = some { n with children := ks, sharedCount := j } ∧ List.Forall₂ R n.children ks
  other : ∀ x n, x ≠ p → t.find? x = some n → ∃ j, s.find? x = some { n with sharedCount := j }
  owned : ∀ k ∈ s.childrenOf p, s.owns p k
  /-- A child is one that `p` had, or it is new. -/
  fresh : ∀ k ∈ s.childrenOf p, t.Live k → k ∈ t.childrenOf p
  new : ∀ x, s.Live x → t.Live x ∨ x ∈ s.childrenOf p

/-- `s` is `t` after `p` has made its children its own. -/
abbrev Privatized (t : Tree α) (p : NodeId) (s : Tree α) : Prop := Rehoused (t.Copied p s) t p s

theorem Rehoused.live (h : Rehoused R t p s) (hx : t.Live x) : s.Live x := by
  obtain ⟨n, hn⟩ := hx
  by_cases hxp : x = p
  · subst hxp
    obtain ⟨ks, j, hk, -⟩ := h.self n hn
    exact ⟨_, hk⟩
  · obtain ⟨j, hj⟩ := h.other x n hxp hn
    exact ⟨_, hj⟩

theorem Rehoused.ownerOf (h : Rehoused R t p s) (hx : t.Live x) : s.ownerOf x = t.ownerOf x := by
  obtain ⟨n, hn⟩ := hx
  by_cases hxp : x = p
  · subst hxp
    obtain ⟨ks, j, hk, -⟩ := h.self n hn
    rw [ownerOf_eq hn, ownerOf_eq hk]
  · obtain ⟨j, hj⟩ := h.other x n hxp hn
    rw [ownerOf_eq hn, ownerOf_eq hj]

variable [Scalar α] {asked : Bool}

/-- `s` is `t` after `p` has made its children its own, or has been given others by the host. -/
structure Staffed (t : Tree α) (asked : Bool) (p : NodeId) (s : Tree α) : Prop
    extends Rehoused (t.StandsFor asked p s) t p s where
  config : s.config = t.config

theorem Staffed.refl (ho : ∀ c ∈ t.childrenOf p, t.owns p c) : t.Staffed asked p t := by
  refine ⟨⟨?_, fun x n _ hn => ⟨n.sharedCount, hn⟩, ho, fun k hk _ => hk, fun x hx => Or.inl hx⟩,
    rfl⟩
  intro n hn
  refine ⟨n.children, n.sharedCount, hn, List.forall₂_same.mpr fun c hc => ?_⟩
  obtain ⟨m, hm, hmo⟩ := owns_eq_true.mp (ho c (by rwa [childrenOf_eq hn]))
  exact ⟨m, m, m.sharedCount, hm, Or.inl rfl, by rw [← hmo]; exact hm⟩

theorem Staffing.owns (h : t.Staffing asked p cs ks s) : ∀ k ∈ ks, s.owns p k = true := by
  intro k hk
  obtain ⟨c, -, n, m, j, -, -, hkf⟩ := exists_of_forall₂ h.standIns hk
  simp [Tree.owns, ownerOf_eq hkf]

theorem Staffed.privatized (h : t.Staffed false p s) : t.Privatized p s := by
  refine ⟨fun n hn => ?_, h.other, h.owned, h.fresh, h.new⟩
  obtain ⟨ks, j, hk, hstand⟩ := h.self n hn
  refine ⟨ks, j, hk, hstand.imp fun _ _ hck => ?_⟩
  obtain ⟨n, m, j, hn, rfl | ⟨ha, -⟩, hk⟩ := hck
  · exact ⟨_, j, hn, hk⟩
  · cases ha

theorem Balancing.staff {n : Node α} (hn : t.find? p = some n)
    (hc : t.Staffing asked p n.children ks s) (h : s.Balancing p ks) :
    (s.update p fun n => { n with children := ks }).Balanced ∧
      t.Staffed asked p (s.update p fun n => { n with children := ks }) := by
  obtain ⟨i, hi⟩ := hc.recounts p n hn
  have hlist : (s.update p fun n => { n with children := ks }).childrenOf p = ks :=
    childrenOf_write ks ⟨_, hi⟩ fun _ _ => rfl
  have howns : (s.update p fun n => { n with children := ks }).owns = s.owns :=
    owns_update fun _ _ => rfl
  have hcop : ∀ c k, t.StandsFor asked p s c k → k ∈ ks →
      t.StandsFor asked p (s.update p fun n => { n with children := ks }) c k := by
    rintro c k ⟨l, m, j, hl, hm, hk⟩ hmem
    refine ⟨l, m, j, hl, hm, ?_⟩
    have hkp : k ≠ p := fun he => hc.fresh k hmem (he ▸ ⟨n, hn⟩)
    rw [find?_update_other _ _ hkp, hk]
  have hw : (s.update p fun n => { n with children := ks }).Balancing p ks :=
    h.write ks (fun _ _ => rfl) (fun c hc => h.listed_live hc) (by simpa using h.books.nodup p)
  refine ⟨hw.close (by rw [hlist]) (Or.inl fun c hm => ?_), ⟨?_, ?_, ?_, ?_, ?_⟩, hc.config⟩
  · rw [howns]
    exact hc.owns c (by rwa [hlist] at hm)
  · intro m hm
    obtain rfl : n = m := Option.some.inj (hn.symm.trans hm)
    refine ⟨ks, i, by simp [hi], ?_⟩
    obtain ⟨hlen, hzip⟩ := List.forall₂_iff_zip.mp hc.standIns
    exact List.forall₂_iff_zip.mpr ⟨hlen, fun {c k} hck =>
      hcop c k (hzip hck) (List.of_mem_zip hck).2⟩
  · intro x m hx hm
    obtain ⟨j, hj⟩ := hc.recounts x m hm
    exact ⟨j, by rw [find?_update_other _ _ hx, hj]⟩
  · intro k hk
    rw [howns]
    exact hc.owns k (by rwa [hlist] at hk)
  · intro k hk hl
    exact absurd hl (hc.fresh k (by rwa [hlist] at hk))
  · intro x hx
    rw [hlist]
    exact hc.new x (live_update.mp hx)

omit [Scalar α] in
theorem Privatized.sound (h : t.Privatized p s) (ht : t.Sound) (hp : t.Live p) (hs : s.Balanced)
    (hcfg : s.config = t.config) : s.Sound := by
  obtain ⟨n, hn⟩ := hp
  obtain ⟨ks, j, hk, hcopies⟩ := h.self n hn
  have hold : ∀ {x m}, t.find? x = some m → (m.measure.isSome → m.children = []) ∧
      m.config.onCopy = none := fun hm => ⟨ht.arena.leaf hm, ht.hookless.2 hm⟩
  have hnode : ∀ {x m}, s.find? x = some m → (m.measure.isSome → m.children = []) ∧
      m.config.onCopy = none := by
    intro x m hm
    by_cases hxp : x = p
    · subst hxp
      obtain rfl : _ = m := Option.some.inj (hk.symm.trans hm)
      refine ⟨fun hsome => ?_, (hold hn).2⟩
      have hnil : n.children = [] := ht.arena.leaf hn hsome
      rw [hnil] at hcopies
      exact List.forall₂_nil_left_iff.mp hcopies
    · by_cases hxl : t.Live x
      · obtain ⟨l, hl⟩ := hxl
        obtain ⟨i, hi⟩ := h.other x l hxp hl
        obtain rfl : _ = m := Option.some.inj (hi.symm.trans hm)
        have hkeep := hold hl
        exact hkeep
      · have hmem := (h.new x ⟨m, hm⟩).resolve_left hxl
        rw [childrenOf_eq hk] at hmem
        obtain ⟨c, -, l, i, hl, hxf⟩ := exists_of_forall₂ hcopies hmem
        obtain rfl : _ = m := Option.some.inj (hxf.symm.trans hm)
        have hkeep := hold hl
        exact hkeep
  refine ⟨⟨hs, fun hm => (hnode hm).1⟩, ?_, fun hm => (hnode hm).2⟩
  rw [hcfg]
  exact ht.hookless.1

end Tree

namespace Edit

variable [Scalar α] {t : Tree α} {p : NodeId}

theorem ownChildren_owned (h : t.Balanced) (hp : t.Live p)
    (ho : ∀ c ∈ t.childrenOf p, t.owns p c) : (ownChildren p).apply t = (.ok ⟨⟩, t) := by
  obtain ⟨n, hn⟩ := hp
  cases hcs : n.children with
  | nil => simp [ownChildren, apply_bind, apply_node hn, hcs]
  | cons c cs =>
    obtain ⟨m, hm⟩ := h.live hn (c := c) (by simp [hcs])
    have hmo : m.isOwnedBy p = true := by
      rw [← Tree.owns_eq hm]
      exact ho c (by simp [Tree.childrenOf_eq hn, hcs])
    simp [ownChildren, apply_bind, apply_node hn, hcs, apply_node hm, hmo]

theorem ownChildren_copies (h : t.Balanced) {n : Node α} (hn : t.find? p = some n)
    (hno : ¬ ∀ c ∈ t.childrenOf p, t.owns p c) :
    ∃ ks s, (copyAll p n.config.onCopy 0 n.children).apply t = (.ok ks, s) ∧ s.Balancing p ks ∧
      t.Staffing n.config.onCopy.isSome p n.children ks s ∧
      (ownChildren p).apply t = (.ok ⟨⟩, s.update p fun n => { n with children := ks }) := by
  have hlist := Tree.childrenOf_eq hn
  have hnone : ∀ c ∈ n.children, t.owns p c = false := by
    intro c hc
    simpa using (h.whole p).resolve_left hno c (by rwa [hlist])
  obtain ⟨c, cs, hcs⟩ : ∃ c cs, n.children = c :: cs := by
    refine List.exists_cons_of_ne_nil fun hnil => hno ?_
    simp [hlist, hnil]
  obtain ⟨m, hm⟩ := h.live hn (c := c) (by simp [hcs])
  have hmo : m.isOwnedBy p = false := by
    rw [← Tree.owns_eq hm]
    exact hnone c (by simp [hcs])
  have hpend : t.Balancing p (n.children ++ []) := by
    simpa [hlist] using h.balancing p
  obtain ⟨ks, s, hrun, hs, hcopy⟩ := copyAll_run n.children 0 n.config.onCopy hpend ⟨n, hn⟩ hnone
  obtain ⟨j, hj⟩ := hcopy.recounts p n hn
  refine ⟨ks, s, hrun, by simpa using hs, hcopy, ?_⟩
  rw [hcs] at hrun
  simp [ownChildren, apply_bind, apply_node hn, hcs, apply_node hm, hmo, hrun, apply_change hj]

theorem ownChildren_staffed (h : t.Balanced) {n : Node α} (hn : t.find? p = some n) :
    ∃ s, (ownChildren p).apply t = (.ok ⟨⟩, s) ∧ s.Balanced ∧
      t.Staffed n.config.onCopy.isSome p s := by
  by_cases hall : ∀ c ∈ t.childrenOf p, t.owns p c
  · exact ⟨t, ownChildren_owned h ⟨n, hn⟩ hall, h, Tree.Staffed.refl hall⟩
  · obtain ⟨ks, s, -, hs, hcopy, hrun⟩ := ownChildren_copies h hn hall
    exact ⟨_, hrun, Tree.Balancing.staff hn hcopy hs⟩

theorem ownChildren_run (h : t.Sound) (hp : t.Live p) :
    ∃ s, (ownChildren p).apply t = (.ok ⟨⟩, s) ∧ s.Sound ∧ t.Privatized p s := by
  obtain ⟨n, hn⟩ := hp
  obtain ⟨s, hrun, hs, hstaff⟩ := ownChildren_staffed h.arena.toBalanced hn
  have hpriv : t.Privatized p s := by
    rw [h.hookless.2 hn] at hstaff
    exact hstaff.privatized
  exact ⟨s, hrun, hpriv.sound h ⟨n, hn⟩ hs hstaff.config, hpriv⟩

end Edit

end Flexbox
