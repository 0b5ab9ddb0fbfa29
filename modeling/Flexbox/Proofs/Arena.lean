import Flexbox.Proofs.Accounts

namespace Flexbox.Tree

variable {α : Type} {p c q : NodeId} {n : Node α} {cs : List NodeId}

/-- The child list written on a node; a missing node has none. -/
def childrenOf (t : Tree α) (id : NodeId) : List NodeId := ((t.find? id).map Node.children).getD []

def ownerOf (t : Tree α) (id : NodeId) : Option NodeId := (t.find? id).bind Node.owner

def owns (t : Tree α) (p c : NodeId) : Bool := t.ownerOf c == some p

/-- The nodes that list `c` and do not own it. -/
def sharers (t : Tree α) (c : NodeId) : Finset NodeId :=
  t.ids.toFinset.filter fun p => c ∈ t.childrenOf p ∧ ¬ t.owns p c

/-- A node owns all of the children it lists, or none. -/
def Whole (t : Tree α) (p : NodeId) : Prop :=
  (∀ c ∈ t.childrenOf p, t.owns p c) ∨ ∀ c ∈ t.childrenOf p, ¬ t.owns p c

theorem Whole.owned {t : Tree α} (h : t.Whole p) (hc : c ∈ t.childrenOf p)
    (ho : t.owns p c = true) : ∀ d ∈ t.childrenOf p, t.owns p d :=
  h.resolve_right fun hnone => hnone c hc ho

theorem Whole.unowned {t : Tree α} (h : t.Whole p) (hc : c ∈ t.childrenOf p)
    (ho : t.owns p c = false) : ∀ d ∈ t.childrenOf p, t.owns p d = false := by
  have hnone := h.resolve_left fun hall => by simp [hall c hc] at ho
  simpa using hnone

/-- Lists, owners and counts agree with each other. -/
structure Balanced (t : Tree α) : Prop where
  tidy : t.Tidy
  /-- Listed nodes are there. -/
  live : ∀ {p n c}, t.find? p = some n → c ∈ n.children → t.Live c
  /-- An owner is there and lists what it owns. -/
  owner : ∀ {c n p}, t.find? c = some n → n.owner = some p →
    ∃ m, t.find? p = some m ∧ c ∈ m.children
  /-- No list names a node twice. -/
  nodup : ∀ {p n}, t.find? p = some n → n.children.Nodup
  /-- The shared count is the number of nodes that list a node without owning it. -/
  count : ∀ {c n}, t.find? c = some n → n.sharedCount = (t.sharers c).card
  whole : ∀ p, t.Whole p

/-- What holds of every store between two edits. -/
structure Arena (t : Tree α) : Prop extends t.Balanced where
  /-- A node with a measure function has no children. -/
  leaf : ∀ {p n}, t.find? p = some n → n.measure.isSome → n.children = []

variable {t s : Tree α}

theorem childrenOf_eq (h : t.find? p = some n) : t.childrenOf p = n.children := by
  simp [childrenOf, h]

theorem childrenOf_absent (h : ¬ t.Live p) : t.childrenOf p = [] := by
  simp [childrenOf, not_live.mp h]

theorem ownerOf_eq (h : t.find? c = some n) : t.ownerOf c = n.owner := by
  simp [ownerOf, h]

theorem owns_eq_true : t.owns p c = true ↔ ∃ n, t.find? c = some n ∧ n.owner = some p := by
  simp [owns, ownerOf, Option.bind_eq_some_iff]

theorem owns_eq (h : t.find? c = some n) : t.owns p c = n.isOwnedBy p := by
  simp [owns, ownerOf_eq h, Node.isOwnedBy]

theorem mem_childrenOf : c ∈ t.childrenOf p ↔ ∃ n, t.find? p = some n ∧ c ∈ n.children := by
  unfold childrenOf
  cases t.find? p <;> simp

theorem sharers_eq (h : t.find? c = some n) : t.sharers c = t.sharersIn t.childrenOf c n.owner := by
  ext p
  simp [sharers, sharersIn, owns, ownerOf_eq h]

theorem Balanced.accounted (h : t.Balanced) : t.Accounted t.childrenOf := by
  refine ⟨h.tidy, fun p hp => childrenOf_absent hp, ?_, ?_, ?_, ?_⟩
  · intro p c hc
    obtain ⟨n, hn, hc⟩ := mem_childrenOf.mp hc
    exact h.live hn hc
  · intro p
    unfold childrenOf
    cases hp : t.find? p with
    | none => simp
    | some n => simpa using h.nodup hp
  · intro c n p hn hp
    exact mem_childrenOf.mpr (h.owner hn hp)
  · intro c n hn
    rw [h.count hn, sharers_eq hn]

theorem Balanced.mem_of_ownerOf (h : t.Balanced) (ho : t.ownerOf c = some p) :
    c ∈ t.childrenOf p := by
  obtain ⟨n, hn, ho⟩ := Option.bind_eq_some_iff.mp ho
  exact mem_childrenOf.mpr (h.owner hn ho)

theorem Accounted.balanced (h : t.Accounted t.childrenOf) (hw : ∀ p, t.Whole p) :
    t.Balanced := by
  refine ⟨h.tidy, ?_, ?_, ?_, ?_, hw⟩
  · intro p n c hn hc
    exact h.live (mem_childrenOf.mpr ⟨n, hn, hc⟩)
  · intro c n p hn hp
    exact mem_childrenOf.mp (h.owner hn hp)
  · intro p n hn
    rw [← childrenOf_eq hn]
    exact h.nodup p
  · intro c n hn
    rw [h.count hn, sharers_eq hn]

theorem Accounted.arena (h : t.Accounted t.childrenOf) (hw : ∀ p, t.Whole p)
    (hl : ∀ {p n}, t.find? p = some n → n.measure.isSome → n.children = []) : t.Arena :=
  ⟨h.balanced hw, hl⟩

/-- No node and no setting asks the host for replacements. -/
def Hookless (t : Tree α) : Prop :=
  t.config.onCopy = none ∧ ∀ {id n}, t.find? id = some n → n.config.onCopy = none

/-- An arena in which copies are made without asking. -/
structure Sound (t : Tree α) : Prop where
  arena : t.Arena
  hookless : t.Hookless

/-- The books are kept as if node `p` listed `cs`; what it really lists is there and listed once. -/
structure Balancing (t : Tree α) (p : NodeId) (cs : List NodeId) : Prop where
  books : t.Accounted (Function.update t.childrenOf p cs)
  held : ∀ c ∈ t.childrenOf p, t.Live c
  once : (t.childrenOf p).Nodup
  whole : ∀ q, q ≠ p → t.Whole q

/-- The arena while the books are kept as if node `p` listed `cs`. -/
structure Pending (t : Tree α) (p : NodeId) (cs : List NodeId) : Prop
    extends t.Balancing p cs where
  leaf : ∀ {q n}, t.find? q = some n → n.measure.isSome → n.children = []
  hookless : t.Hookless

theorem Balancing.pending (h : t.Balancing p cs)
    (hl : ∀ {q n}, t.find? q = some n → n.measure.isSome → n.children = []) (hk : t.Hookless) :
    t.Pending p cs :=
  ⟨h, hl, hk⟩

theorem Balanced.balancing (h : t.Balanced) (p : NodeId) : t.Balancing p (t.childrenOf p) := by
  have hb := h.accounted
  exact ⟨by simpa using hb, fun c hc => hb.live hc, hb.nodup p, fun q _ => h.whole q⟩

theorem Sound.pending (h : t.Sound) (p : NodeId) : t.Pending p (t.childrenOf p) :=
  (h.arena.balancing p).pending h.arena.leaf h.hookless

theorem Sound.pending_list (h : t.Sound) (hn : t.find? p = some n) : t.Pending p n.children :=
  childrenOf_eq hn ▸ h.pending p

theorem Balancing.close (h : t.Balancing p cs) (hcs : (t.childrenOf p).Perm cs) (hw : t.Whole p) :
    t.Balanced := by
  refine Accounted.balanced ?_ ?_
  · have hb := h.books.perm (p := p) (l := t.childrenOf p) (by simpa using hcs)
    simpa using hb
  · intro q
    by_cases hq : q = p
    · exact hq ▸ hw
    · exact h.whole q hq

theorem Pending.close (h : t.Pending p cs) (hcs : (t.childrenOf p).Perm cs) (hw : t.Whole p) :
    t.Sound :=
  ⟨⟨h.toBalancing.close hcs hw, h.leaf⟩, h.hookless⟩

theorem Balancing.perm {ds : List NodeId} (h : t.Balancing p cs) (hd : ds.Perm cs) :
    t.Balancing p ds := by
  refine ⟨?_, h.held, h.once, h.whole⟩
  simpa using h.books.perm (p := p) (l := ds) (by simpa using hd)

theorem Balancing.listed_live (h : t.Balancing p cs) (hc : c ∈ cs) : t.Live c :=
  h.books.live (p := p) (by simpa using hc)

theorem Balancing.children_live (h : t.Balancing p cs) (hq : t.find? q = some n) :
    ∀ c ∈ n.children, t.Live c := by
  intro c hc
  rw [← childrenOf_eq hq] at hc
  by_cases hqp : q = p
  · exact h.held c (hqp ▸ hc)
  · exact h.books.live (p := q) (by simpa [hqp] using hc)

theorem Balancing.children_nodup (h : t.Balancing p cs) (hq : t.find? q = some n) :
    n.children.Nodup := by
  rw [← childrenOf_eq hq]
  by_cases hqp : q = p
  · exact hqp ▸ h.once
  · simpa [hqp] using h.books.nodup q

theorem whole_congr (hc : s.childrenOf p = t.childrenOf p)
    (ho : ∀ c ∈ t.childrenOf p, s.owns p c = t.owns p c) : s.Whole p ↔ t.Whole p := by
  unfold Whole
  rw [hc]
  refine or_congr ?_ ?_ <;>
  · refine forall_congr' fun c => forall_congr' fun hm => ?_
    rw [ho c hm]

theorem Sound.congr (h : t.Sound) (hs : s.Tidy) (he : ∀ x, s.find? x = t.find? x)
    (hcfg : s.config = t.config) : s.Sound := by
  have hc : s.childrenOf = t.childrenOf := funext fun x => by simp [childrenOf, he]
  refine ⟨Accounted.arena ?_ ?_ ?_, ?_, ?_⟩
  · rw [hc]
    exact h.arena.accounted.congr hs he
  · intro p
    exact (whole_congr (by rw [hc]) fun c _ => by simp [owns, ownerOf, he]).mpr (h.arena.whole p)
  · intro p n hp
    exact h.arena.leaf (by rwa [← he])
  · rw [hcfg]
    exact h.hookless.1
  · intro p n hp
    exact h.hookless.2 (by rwa [← he])

theorem Sound.empty {config : Config α} (hc : config.onCopy = none) :
    (Tree.empty config).Sound := by
  have hf : ∀ {x n}, (Tree.empty config).find? x ≠ some n := by simp [find?_empty]
  refine ⟨⟨⟨Tidy.empty_tree config, fun h => absurd h hf, fun h => absurd h hf,
    fun h => absurd h hf, fun h => absurd h hf, ?_⟩, fun h => absurd h hf⟩, hc,
    fun h => absurd h hf⟩
  intro p
  simp [Whole, childrenOf, find?_empty]

end Flexbox.Tree
