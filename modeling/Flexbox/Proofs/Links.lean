import Flexbox.Proofs.Arena

namespace Flexbox

/-- What a host has given a node, and whether it has children. -/
def Node.furnishing {α : Type} (n : Node α) : Config α × Option (Measure α) × Bool :=
  (n.config, n.measure, n.children.isEmpty)

namespace Tree

variable {α : Type} {t s : Tree α} {p c : NodeId} {cs : List NodeId} {id q : NodeId}
  {f : Node α → Node α} {m n : Node α}

/-- `m` is linked as `n` is; if it is measured, `n` was or has no children. -/
structure SameLinks (n m : Node α) : Prop where
  children : m.children = n.children
  owner : m.owner = n.owner
  count : m.sharedCount = n.sharedCount
  measure : m.measure.isSome → n.measure.isSome ∨ n.children = []
  hook : n.config.onCopy = none → m.config.onCopy = none

theorem childrenOf_update (hf : ∀ n, t.find? id = some n → (f n).children = n.children) :
    (t.update id f).childrenOf = t.childrenOf := by
  funext x
  rw [childrenOf, map_find?_update hf x]
  rfl

theorem ownerOf_update (hf : ∀ n, t.find? id = some n → (f n).owner = n.owner) :
    (t.update id f).ownerOf = t.ownerOf := by
  funext x
  have h := map_find?_update hf x
  unfold ownerOf
  cases hx : (t.update id f).find? x <;> cases hy : t.find? x <;> simp_all

theorem owns_update (hf : ∀ n, t.find? id = some n → (f n).owner = n.owner) :
    (t.update id f).owns = t.owns := by
  funext q x
  simp [owns, ownerOf_update hf]

theorem leaf_update (h : ∀ {q n}, t.find? q = some n → n.measure.isSome → n.children = [])
    (hf : ∀ n, t.find? id = some n → (f n).measure.isSome → (f n).children = [])
    (hm : (t.update id f).find? q = some m) (hs : m.measure.isSome) : m.children = [] := by
  obtain ⟨n, rfl, hn, rfl⟩ | ⟨-, hm⟩ := find?_update_cases hm
  · exact hf n hn hs
  · exact h hm hs

theorem Hookless.update (h : t.Hookless) (id : NodeId)
    (hf : ∀ n, t.find? id = some n → n.config.onCopy = none → (f n).config.onCopy = none) :
    (t.update id f).Hookless := by
  refine ⟨h.1, ?_⟩
  intro q m hm
  obtain ⟨n, rfl, hn, rfl⟩ | ⟨-, hm⟩ := find?_update_cases hm
  · exact hf n hn (h.2 hn)
  · exact h.2 hm

section

variable (id) (hc : ∀ n, t.find? id = some n → (f n).children = n.children)
  (ho : ∀ n, t.find? id = some n → (f n).owner = n.owner)
  (hs : ∀ n, t.find? id = some n → (f n).sharedCount = n.sharedCount)

include hc ho hs

theorem Balancing.update (h : t.Balancing p cs) : (t.update id f).Balancing p cs := by
  have hlists : (t.update id f).childrenOf = t.childrenOf := childrenOf_update hc
  refine ⟨?_, ?_, by rw [hlists]; exact h.once, ?_⟩
  · rw [hlists]
    exact h.books.update id ho hs
  · rw [hlists]
    exact fun c hm => live_update.mpr (h.held c hm)
  · intro q hq
    exact (whole_congr (by rw [hlists]) fun c _ => by rw [owns_update ho]).mpr (h.whole q hq)

theorem Balanced.update (h : t.Balanced) : (t.update id f).Balanced := by
  have hlists : (t.update id f).childrenOf = t.childrenOf := childrenOf_update hc
  refine ((h.balancing id).update id hc ho hs).close (by rw [hlists]) ?_
  exact (whole_congr (by rw [hlists]) fun c _ => by rw [owns_update ho]).mpr (h.whole id)

end

theorem Pending.update (h : t.Pending p cs) (id : NodeId)
    (hf : ∀ n, t.find? id = some n → SameLinks n (f n)) : (t.update id f).Pending p cs := by
  refine (h.toBalancing.update id (fun n hn => (hf n hn).children) (fun n hn => (hf n hn).owner)
    fun n hn => (hf n hn).count).pending ?_ (h.hookless.update id fun n hn => (hf n hn).hook)
  refine leaf_update h.leaf fun n hn hs => ?_
  rw [(hf n hn).children]
  exact ((hf n hn).measure hs).elim (h.leaf hn) fun he => he

theorem Sound.update (h : t.Sound) (id : NodeId)
    (hf : ∀ n, t.find? id = some n → SameLinks n (f n) := by
      exact fun _ _ => ⟨rfl, rfl, rfl, Or.inl, fun hk => hk⟩) :
    (t.update id f).Sound := by
  have hp := (h.pending id).update id hf
  refine ⟨⟨h.arena.toBalanced.update id (fun n hn => (hf n hn).children)
    (fun n hn => (hf n hn).owner) fun n hn => (hf n hn).count, hp.leaf⟩, hp.hookless⟩

theorem Balanced.tell (h : t.Balanced) (e : Event α) : (t.tell e).Balanced :=
  ⟨⟨h.tidy.empty, h.tidy.nodup⟩, h.live, h.owner, h.nodup, h.count, h.whole⟩

theorem Balancing.tell (h : t.Balancing p cs) (e : Event α) : (t.tell e).Balancing p cs := by
  have hb := h.books
  exact ⟨⟨⟨hb.tidy.empty, hb.tidy.nodup⟩, hb.absent, hb.live, hb.nodup, hb.owner, hb.count⟩,
    h.held, h.once, h.whole⟩

theorem Sound.tell (h : t.Sound) (e : Event α) : (t.tell e).Sound :=
  h.congr ⟨h.arena.tidy.empty, h.arena.tidy.nodup⟩ (fun _ => rfl) rfl

theorem Pending.tell (h : t.Pending p cs) (e : Event α) : (t.tell e).Pending p cs :=
  (h.toBalancing.tell e).pending h.leaf h.hookless

theorem Sound.furnished (h : t.Sound) (hb : s.Balanced)
    (hf : ∀ x, (s.find? x).map Node.furnishing = (t.find? x).map Node.furnishing)
    (hc : s.config = t.config) : s.Sound := by
  have hback : ∀ {x m}, s.find? x = some m → ∃ n, t.find? x = some n ∧
      n.furnishing = m.furnishing := by
    intro x m hm
    have hx := hf x
    rw [hm] at hx
    exact Option.map_eq_some_iff.mp hx.symm
  refine ⟨⟨hb, fun {x m} hm hs => ?_⟩, by rw [hc]; exact h.hookless.1, fun {x m} hm => ?_⟩
  · obtain ⟨n, hn, he⟩ := hback hm
    simp only [Node.furnishing, Prod.mk.injEq] at he
    rw [← List.isEmpty_iff, ← he.2.2, List.isEmpty_iff]
    exact h.arena.leaf hn (by rwa [he.2.1])
  · obtain ⟨n, hn, he⟩ := hback hm
    simp only [Node.furnishing, Prod.mk.injEq] at he
    rw [← he.1]
    exact h.hookless.2 hn

theorem Balancing.write (h : t.Balancing p cs) (ds : List NodeId)
    (hf : ∀ n, t.find? p = some n → f n = { n with children := ds }) (hl : ∀ c ∈ ds, t.Live c)
    (hd : ds.Nodup) : (t.update p f).Balancing p cs := by
  have hother : ∀ q, q ≠ p → (t.update p f).childrenOf q = t.childrenOf q := fun q hq => by
    simp [childrenOf, find?_update_other t f hq]
  have hself : (t.update p f).childrenOf p = [] ∨ (t.update p f).childrenOf p = ds := by
    unfold childrenOf
    rw [find?_update_self]
    cases hn : t.find? p with
    | none => simp
    | some n => simp [hf n hn]
  have hroster : Function.update (t.update p f).childrenOf p cs =
      Function.update t.childrenOf p cs := by
    funext q
    by_cases hq : q = p
    · simp [hq]
    · simp [hq, hother q hq]
  refine ⟨?_, ?_, ?_, ?_⟩
  · rw [hroster]
    exact h.books.update p (fun n hn => by rw [hf n hn]) fun n hn => by rw [hf n hn]
  · intro c hc
    rcases hself with he | he <;> rw [he] at hc
    · cases hc
    · exact live_update.mpr (hl c hc)
  · rcases hself with he | he <;> rw [he]
    · exact List.nodup_nil
    · exact hd
  · intro q hq
    exact (whole_congr (hother q hq) fun c _ => by rw [owns_update fun n hn => by rw [hf n hn]]).mpr
      (h.whole q hq)

theorem Pending.write (h : t.Pending p cs) (ds : List NodeId)
    (hf : ∀ n, t.find? p = some n → f n = { n with children := ds }) (hl : ∀ c ∈ ds, t.Live c)
    (hd : ds.Nodup) (hm : ∀ n, t.find? p = some n → n.measure.isSome → ds = []) :
    (t.update p f).Pending p cs := by
  refine (h.toBalancing.write ds hf hl hd).pending ?_
    (h.hookless.update p fun n hn ho => by rwa [hf n hn])
  refine leaf_update h.leaf fun n hn hs => ?_
  rw [hf n hn] at hs ⊢
  exact hm n hn hs

theorem childrenOf_write (ds : List NodeId) (hp : t.Live p)
    (hf : ∀ n, t.find? p = some n → f n = { n with children := ds }) :
    (t.update p f).childrenOf p = ds := by
  obtain ⟨n, hn⟩ := hp
  simp [childrenOf, hn, hf n hn]

theorem childrenOf_unlist (t : Tree α) (p c : NodeId) :
    (t.unlist p c).childrenOf = t.childrenOf :=
  childrenOf_update fun n _ => by split <;> rfl

theorem ownerOf_unlist (t : Tree α) (p c x : NodeId) :
    (t.unlist p c).ownerOf x = if x = c ∧ t.ownerOf x = some p then none else t.ownerOf x := by
  unfold ownerOf
  rw [find?_unlist]
  by_cases hx : x = c
  · subst hx
    cases hn : t.find? x with
    | none => simp
    | some n =>
      by_cases ho : n.owner = some p
      · simp [Node.isOwnedBy, ho]
      · simp [Node.isOwnedBy, ho]
  · simp [hx]

theorem owns_unlist_other (hq : q ≠ p) (x : NodeId) : (t.unlist p c).owns q x = t.owns q x := by
  unfold owns
  rw [ownerOf_unlist]
  split
  · rename_i ho
    simp [ho.2, Ne.symm hq]
  · rfl

theorem leaf_unlist (h : ∀ {q n}, t.find? q = some n → n.measure.isSome → n.children = [])
    (hm : (t.unlist p c).find? q = some m) (hs : m.measure.isSome) : m.children = [] := by
  refine leaf_update h (fun n hn hs => ?_) hm hs
  have he := h hn
  split at hs <;> split <;> simp_all

theorem Hookless.unlist (h : t.Hookless) (p c : NodeId) : (t.unlist p c).Hookless :=
  h.update c fun n _ hn => by split <;> exact hn

theorem Balancing.unlist (h : t.Balancing p cs) (hc : c ∈ cs) :
    (t.unlist p c).Balancing p (cs.erase c) := by
  have hch := childrenOf_unlist t p c
  refine ⟨?_, ?_, by rw [hch]; exact h.once, ?_⟩
  · rw [hch]
    simpa using h.books.unlist (p := p) (c := c) (by simpa using hc)
  · rw [hch]
    exact fun d hd => live_update.mpr (h.held d hd)
  · intro q hq
    exact (whole_congr (by rw [hch]) fun d _ => owns_unlist_other hq d).mpr (h.whole q hq)

theorem Pending.unlist (h : t.Pending p cs) (hc : c ∈ cs) :
    (t.unlist p c).Pending p (cs.erase c) :=
  (h.toBalancing.unlist hc).pending (leaf_unlist h.leaf) (h.hookless.unlist p c)

theorem ownerOf_adopt (hc : t.Live c) (hf : ∀ n, f n = { n with owner := some p }) (x : NodeId) :
    (t.update c f).ownerOf x = if x = c then some p else t.ownerOf x := by
  obtain ⟨n, hn⟩ := hc
  unfold ownerOf
  rw [find?_update]
  split
  · rename_i hx
    simp [hx, hn, hf]
  · rfl

theorem Balancing.adopt (h : t.Balancing p cs) (hp : t.Live p) (hl : t.Live c)
    (ho : t.ownerOf c = none) (hc : c ∉ cs) (hf : ∀ n, f n = { n with owner := some p }) :
    (t.update c f).Balancing p (c :: cs) := by
  have hch : (t.update c f).childrenOf = t.childrenOf := childrenOf_update fun n _ => by rw [hf]
  refine ⟨?_, ?_, by rw [hch]; exact h.once, ?_⟩
  · rw [hch]
    obtain ⟨n, hn⟩ := hl
    rw [ownerOf_eq hn] at ho
    have hb := h.books.adopt (p := p) (l := c :: cs) (f := f) hp hn ho (by simpa using hc)
      (by simp) (fun n => by rw [hf]) fun n => by rw [hf]
    simpa using hb
  · rw [hch]
    exact fun d hd => live_update.mpr (h.held d hd)
  · intro q hq
    refine (whole_congr (by rw [hch]) fun d _ => ?_).mpr (h.whole q hq)
    unfold owns
    rw [ownerOf_adopt hl hf]
    split
    · rename_i hd
      simp [hd, ho, Ne.symm hq]
    · rfl

theorem Pending.adopt (h : t.Pending p cs) (hp : t.Live p) (hl : t.Live c) (ho : t.ownerOf c = none)
    (hc : c ∉ cs) (hf : ∀ n, f n = { n with owner := some p }) :
    (t.update c f).Pending p (c :: cs) := by
  refine (h.toBalancing.adopt hp hl ho hc hf).pending ?_
    (h.hookless.update c fun n _ ho => by rwa [hf])
  refine leaf_update h.leaf fun n hn hs => ?_
  rw [hf] at hs ⊢
  have hl := h.leaf hn
  exact hl hs

theorem share_config (t : Tree α) (cs : List NodeId) : (t.share cs).config = t.config := by
  unfold share
  induction cs generalizing t with
  | nil => rfl
  | cons c cs ih => simp [ih]

def withCopy (t : Tree α) (p : NodeId) (n : Node α) : Tree α :=
  (t.insert { n with owner := some p, sharedCount := 0 }).2.share n.children

def copyName (t : Tree α) (p : NodeId) (n : Node α) : NodeId :=
  (t.insert { n with owner := some p, sharedCount := 0 }).1

theorem copyName_fresh (h : t.Tidy) (p : NodeId) (n : Node α) : ¬ t.Live (t.copyName p n) :=
  not_live.mpr (h.insert_fresh _)

theorem find?_withCopy (h : t.Tidy) (hn : ∀ c ∈ n.children, t.Live c) (x : NodeId) :
    (t.withCopy p n).find? x = if x = t.copyName p n
      then some { n with owner := some p, sharedCount := 0 }
      else (t.find? x).map fun m =>
        { m with sharedCount := m.sharedCount + n.children.count x } :=
  find?_enter h hn x

theorem withCopy_config (t : Tree α) (p : NodeId) (n : Node α) :
    (t.withCopy p n).config = t.config := by
  simp [withCopy, share_config]

theorem Balancing.enter (h : t.Balancing p cs) (hp : t.Live p) (hd : n.children.Nodup)
    (hlive : ∀ c ∈ n.children, t.Live c) : (t.withCopy p n).Balancing p (t.copyName p n :: cs) := by
  have htidy := h.books.tidy
  have hfresh := copyName_fresh htidy p n
  have hfind := fun x => find?_withCopy (p := p) htidy hlive x
  have hpk : p ≠ t.copyName p n := fun he => hfresh (he ▸ hp)
  have hch : ∀ x, (t.withCopy p n).childrenOf x =
      if x = t.copyName p n then n.children else t.childrenOf x := by
    intro x
    unfold childrenOf
    rw [hfind]
    split
    · rfl
    · cases t.find? x <;> rfl
  have howns : ∀ q x, q ≠ p → (t.withCopy p n).owns q x = t.owns q x := by
    intro q x hq
    unfold owns ownerOf
    rw [hfind]
    split
    · rename_i hx
      simp [not_live.mp (hx ▸ hfresh), Ne.symm hq]
    · cases t.find? x <;> rfl
  have hnone : ∀ x, t.owns (t.copyName p n) x = false := by
    intro x
    by_contra ho
    obtain ⟨m, hm, hmo⟩ := owns_eq_true.mp (Bool.eq_true_of_not_eq_false ho)
    have hk := h.books.owner hm hmo
    rw [Function.update_of_ne (Ne.symm hpk), childrenOf_absent hfresh] at hk
    cases hk
  refine ⟨?_, ?_, ?_, ?_⟩
  · have hb := h.books.enter_owned (n := { n with owner := some p, sharedCount := 0 }) hp rfl rfl
      hd hlive
    have hroster : Function.update (t.withCopy p n).childrenOf p (t.copyName p n :: cs) =
        Function.update (Function.update (Function.update t.childrenOf p cs) (t.copyName p n)
          n.children) p (t.copyName p n :: Function.update t.childrenOf p cs p) := by
      funext q
      by_cases hq : q = p
      · simp [hq]
      · simp [hq, hch, Function.update_apply]
    rw [hroster]
    exact hb
  · intro d hd
    rw [hch, if_neg hpk] at hd
    obtain ⟨m, hm⟩ := h.held d hd
    have hdk : d ≠ t.copyName p n := fun he => hfresh (he ▸ ⟨m, hm⟩)
    exact ⟨_, by rw [hfind, if_neg hdk, hm]; rfl⟩
  · rw [hch, if_neg hpk]
    exact h.once
  · intro q hq
    by_cases hqk : q = t.copyName p n
    · right
      intro d _
      rw [howns q d hq, hqk, hnone]
      simp
    · exact (whole_congr (by rw [hch, if_neg hqk]) fun d _ => howns q d hq).mpr (h.whole q hq)

theorem withCopy_keeps (ht : t.Tidy) {P : Node α → Prop} (hlive : ∀ c ∈ n.children, t.Live c)
    (hP : ∀ n o j, P n → P { n with owner := o, sharedCount := j }) (hn : P n)
    (hall : ∀ {q m}, t.find? q = some m → P m) (hm : (t.withCopy p n).find? q = some m) : P m := by
  rw [find?_withCopy ht hlive] at hm
  split at hm
  · cases hm
    exact hP n _ _ hn
  · obtain ⟨m', hm', rfl⟩ := Option.map_eq_some_iff.mp hm
    exact hP m' m'.owner _ (hall hm')

theorem Pending.copy (h : t.Pending p cs) (hp : t.Live p) (hn : t.find? c = some n) :
    (t.withCopy p n).Pending p (t.copyName p n :: cs) := by
  have htidy := h.books.tidy
  have hlive := h.children_live hn
  refine (h.toBalancing.enter hp (h.children_nodup hn) hlive).pending ?_ ⟨?_, ?_⟩
  · exact withCopy_keeps htidy hlive (fun _ _ _ hk => hk) (h.leaf hn) h.leaf
  · rw [withCopy_config]
    exact h.hookless.1
  · exact withCopy_keeps htidy hlive (fun _ _ _ hk => hk) (h.hookless.2 hn) h.hookless.2

end Tree

end Flexbox
