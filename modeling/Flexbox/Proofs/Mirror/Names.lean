import Flexbox.Proofs.Copying

namespace Flexbox

variable {α : Type}

namespace Tree

variable {t t' : Tree α} {x : NodeId}

/-- How often each slot was used, and whether it is taken. -/
def occupancy (t : Tree α) : Array (Nat × Bool) :=
  t.slots.map fun s => (s.version, s.node.isSome)

/-- The next nodes get the same names in both stores, and the same names are in use. -/
structure SameNames (t t' : Tree α) : Prop where
  free : t'.free = t.free
  occupancy : t'.occupancy = t.occupancy

theorem SameNames.size (h : t.SameNames t') : t'.slots.size = t.slots.size := by
  have hsize := congrArg Array.size h.occupancy
  simpa [Tree.occupancy] using hsize

theorem SameNames.version (h : t.SameNames t') (slot : Nat) :
    t'.slots[slot]?.map Slot.version = t.slots[slot]?.map Slot.version := by
  have hslot := congrArg (fun o => o[slot]?.map Prod.fst) h.occupancy
  simpa [Tree.occupancy, Function.comp_def] using hslot

theorem isSome_find? (t : Tree α) (x : NodeId) :
    (t.find? x).isSome = (t.occupancy[x.slot]?).any fun o => o.1 == x.version && o.2 := by
  unfold find? occupancy
  rw [Array.getElem?_map]
  cases t.slots[x.slot]? with
  | none => rfl
  | some s =>
    simp only [Option.map_some, Option.any_some]
    cases s.version == x.version <;> rfl

theorem SameNames.live (h : t.SameNames t') : t'.Live x ↔ t.Live x := by
  unfold Live
  rw [← Option.isSome_iff_exists, ← Option.isSome_iff_exists, isSome_find?, isSome_find?,
    h.occupancy]

theorem occupancy_update (t : Tree α) (x : NodeId) (f : Node α → Node α) :
    (t.update x f).occupancy = t.occupancy := by
  unfold occupancy update
  refine Array.ext (by simp) fun i _ _ => ?_
  simp only [Array.getElem_map, Array.getElem_modify]
  split
  · split <;> simp
  · rfl

theorem SameNames.update (h : t.SameNames t') (x : NodeId) (f g : Node α → Node α) :
    (t.update x f).SameNames (t'.update x g) :=
  ⟨h.free, by rw [occupancy_update, occupancy_update, h.occupancy]⟩

theorem SameNames.insert (h : t.SameNames t') (n m : Node α) :
    (t'.insert m).1 = (t.insert n).1 ∧ (t.insert n).2.SameNames (t'.insert m).2 := by
  have hoccupancy := h.occupancy
  unfold Tree.insert
  rw [h.free]
  cases hfree : t.free with
  | nil =>
    refine ⟨by simp [h.size], rfl, ?_⟩
    unfold Tree.occupancy at hoccupancy ⊢
    simp [hoccupancy]
  | cons slot rest =>
    dsimp only
    rw [h.version]
    generalize (t.slots[slot]?.map Slot.version).getD 0 + 1 = version
    refine ⟨rfl, rfl, ?_⟩
    have htaken : ∀ (u : Tree α) (k : Node α),
        (u.slots.modify slot fun _ => ⟨version, some k⟩).map (fun s => (s.version, s.node.isSome)) =
          u.occupancy.modify slot fun _ => (version, true) := by
      intro u k
      unfold Tree.occupancy
      refine Array.ext (by simp) fun i _ _ => ?_
      simp only [Array.getElem_map, Array.getElem_modify]
      split <;> rfl
    rw [Tree.occupancy, Tree.occupancy, htaken, htaken, hoccupancy]

theorem occupancy_share (t : Tree α) (cs : List NodeId) :
    (t.share cs).occupancy = t.occupancy ∧ (t.share cs).free = t.free := by
  unfold share
  induction cs generalizing t with
  | nil => exact ⟨rfl, rfl⟩
  | cons c cs ih =>
    rw [List.foldl_cons, (ih _).1, (ih _).2, occupancy_update]
    exact ⟨rfl, rfl⟩

theorem SameNames.share (h : t.SameNames t') (cs ds : List NodeId) :
    (t.share cs).SameNames (t'.share ds) :=
  ⟨by rw [(occupancy_share t' ds).2, (occupancy_share t cs).2, h.free],
    by rw [(occupancy_share t' ds).1, (occupancy_share t cs).1, h.occupancy]⟩

end Tree

namespace Edit

variable [Scalar α] {t t' : Tree α}

theorem copyAll_names (h : t.SameNames t') (owner : NodeId) (index : Nat) (cs : List NodeId) :
    ((copyAll owner none index cs).apply t').1 = ((copyAll owner none index cs).apply t).1 ∧
      ((copyAll owner none index cs).apply t).2.SameNames
        ((copyAll owner none index cs).apply t').2 := by
  induction cs generalizing t t' index with
  | nil => exact ⟨rfl, h⟩
  | cons c cs ih =>
    by_cases hc : t.Live c
    · obtain ⟨n, hn⟩ := hc
      obtain ⟨m, hm⟩ := h.live.mpr ⟨n, hn⟩
      obtain ⟨hname, hinsert⟩ := h.insert { n with owner := some owner, sharedCount := 0 }
        { m with owner := some owner, sharedCount := 0 }
      have hcopied : ((t.withCopy owner n).unlist owner c).SameNames
          ((t'.withCopy owner m).unlist owner c) :=
        (hinsert.share n.children m.children).update c _ _
      obtain ⟨hnames, hsame⟩ := ih hcopied (index + 1)
      replace hname : t'.copyName owner m = t.copyName owner n := hname
      simp [copyAll, apply_bind, apply_copyFor index hn, apply_copyFor index hm, hname, hnames,
        hsame]
    · have hn := Tree.not_live.mp hc
      have hm := Tree.not_live.mp fun hl => hc (h.live.mp hl)
      have hfail : ∀ {u : Tree α}, u.find? c = none →
          (copyAll owner none index (c :: cs)).apply u = (.error (.unknownNode c), u) := by
        intro u hu
        simp [copyAll, copyFor, apply_bind, apply_node_none hu]
      rw [hfail hn, hfail hm]
      exact ⟨rfl, h⟩

/-- A node that lists the same children in both stores, and owns them in both or in neither, lists
the same ones once they are its own. -/
theorem ownChildren_names (h : t.SameNames t') (ht : t.Sound) (ht' : t'.Sound) (hl : t.Live owner)
    (hlist : t'.childrenOf owner = t.childrenOf owner)
    (howns : ∀ c ∈ t.childrenOf owner, t'.owns owner c = t.owns owner c) :
    ((ownChildren owner).apply t).2.SameNames ((ownChildren owner).apply t').2 ∧
      ((ownChildren owner).apply t').2.childrenOf owner =
        ((ownChildren owner).apply t).2.childrenOf owner := by
  have hl' := h.live.mpr hl
  by_cases hall : ∀ c ∈ t.childrenOf owner, t.owns owner c
  · have hall' : ∀ c ∈ t'.childrenOf owner, t'.owns owner c := by
      intro c hc
      rw [hlist] at hc
      rw [howns c hc]
      exact hall c hc
    rw [ownChildren_owned ht.arena.toBalanced hl hall,
      ownChildren_owned ht'.arena.toBalanced hl' hall']
    exact ⟨h, hlist⟩
  · have hno' : ¬ ∀ c ∈ t'.childrenOf owner, t'.owns owner c := by
      intro hall'
      refine hall fun c hc => ?_
      rw [← howns c hc]
      exact hall' c (by rwa [hlist])
    obtain ⟨n, hn⟩ := hl
    obtain ⟨m, hm⟩ := hl'
    rw [Tree.childrenOf_eq hn, Tree.childrenOf_eq hm] at hlist
    obtain ⟨ks, s, hcopies, -, hstaff, hrun⟩ := ownChildren_copies ht.arena.toBalanced hn hall
    obtain ⟨ks', s', hcopies', -, hstaff', hrun'⟩ := ownChildren_copies ht'.arena.toBalanced hm hno'
    have hs := hstaff.recounts.live ⟨n, hn⟩
    have hs' := hstaff'.recounts.live ⟨m, hm⟩
    obtain ⟨hnames, hsame⟩ := copyAll_names h owner 0 n.children
    rw [ht.hookless.2 hn] at hcopies
    rw [hlist, ht'.hookless.2 hm] at hcopies'
    rw [hcopies, hcopies'] at hnames hsame
    obtain rfl : ks' = ks := by simpa using hnames
    rw [hrun, hrun']
    refine ⟨hsame.update owner _ _, ?_⟩
    rw [Tree.childrenOf_write ks' hs' fun _ _ => rfl, Tree.childrenOf_write ks' hs fun _ _ => rfl]

end Edit

end Flexbox
