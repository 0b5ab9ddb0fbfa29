import Flexbox.Proofs.Running
import Flexbox.Tree.Sharing
import Mathlib.Data.List.Perm.Basic

namespace Flexbox

/-- The child list each node is meant to have. -/
abbrev Roster := NodeId → List NodeId

namespace Tree

variable {α : Type} {p c : NodeId} {n : Node α}

def sharersIn (t : Tree α) (L : Roster) (c : NodeId) (owner : Option NodeId) : Finset NodeId :=
  t.ids.toFinset.filter fun p => c ∈ L p ∧ owner ≠ some p

/-- Owners list what they own, and every node counts the others that list it. -/
structure Accounted (L : Roster) (t : Tree α) : Prop where
  tidy : t.Tidy
  absent : ∀ p, ¬ t.Live p → L p = []
  live : ∀ {p c}, c ∈ L p → t.Live c
  nodup : ∀ p, (L p).Nodup
  owner : ∀ {c n p}, t.find? c = some n → n.owner = some p → c ∈ L p
  count : ∀ {c n}, t.find? c = some n → n.sharedCount = (t.sharersIn L c n.owner).card

variable {L : Roster} {t s : Tree α} {f : Node α → Node α} {o : Option NodeId} {l cs : List NodeId}

theorem Accounted.lister_live (h : t.Accounted L) (hc : c ∈ L p) : t.Live p := by
  by_contra hp
  simp [h.absent p hp] at hc

theorem mem_sharersIn_of_absent (ha : ∀ p, ¬ t.Live p → L p = []) :
    p ∈ t.sharersIn L c o ↔ c ∈ L p ∧ o ≠ some p := by
  simp only [sharersIn, Finset.mem_filter, List.mem_toFinset, mem_ids, and_iff_right_iff_imp]
  rintro ⟨hp, -⟩
  by_contra hn
  simp [ha p hn] at hp

theorem Accounted.mem_sharersIn (h : t.Accounted L) :
    p ∈ t.sharersIn L c o ↔ c ∈ L p ∧ o ≠ some p :=
  mem_sharersIn_of_absent h.absent

theorem Accounted.card_sharersIn (h : t.Accounted L) {L' : Roster} {o' : Option NodeId}
    (ha : ∀ p, ¬ s.Live p → L' p = [])
    (hsame : ∀ q, c ∈ L' q ∧ o' ≠ some q ↔ c ∈ L q ∧ o ≠ some q) :
    (t.sharersIn L c o).card = (s.sharersIn L' c o').card := by
  congr 1
  ext q
  rw [h.mem_sharersIn, mem_sharersIn_of_absent ha, hsame]

theorem nodup_update (h : ∀ q, (L q).Nodup) (hl : l.Nodup) (q : NodeId) :
    (Function.update L p l q).Nodup :=
  (Function.forall_update_iff L fun _ l => l.Nodup).mpr ⟨hl, fun q _ => h q⟩ q

theorem Accounted.congr (h : t.Accounted L) (hs : s.Tidy) (he : ∀ x, s.find? x = t.find? x) :
    s.Accounted L := by
  have hl : ∀ x, s.Live x ↔ t.Live x := fun x => by simp [Live, he]
  have habs : ∀ p, ¬ s.Live p → L p = [] := fun p hp => h.absent p (by rwa [← hl])
  refine ⟨hs, habs, fun hc => (hl _).mpr (h.live hc), h.nodup, ?_, ?_⟩
  · intro c n p hn ho
    exact h.owner (by rwa [← he]) ho
  · intro c n hn
    exact (h.count (by rwa [← he])).trans (h.card_sharersIn habs fun _ => Iff.rfl)

theorem Accounted.perm (h : t.Accounted L) (hcs : l.Perm (L p)) :
    t.Accounted (Function.update L p l) := by
  have hmem : ∀ {q d}, d ∈ Function.update L p l q ↔ d ∈ L q := by
    intro q d
    by_cases hq : q = p
    · subst hq
      simp [hcs.mem_iff]
    · simp [hq]
  have habs : ∀ q, ¬ t.Live q → Function.update L p l q = [] := by
    intro q hq
    refine List.eq_nil_iff_forall_not_mem.mpr fun d hd => ?_
    rw [hmem, h.absent q hq] at hd
    cases hd
  refine ⟨h.tidy, habs, fun hc => h.live (hmem.mp hc),
    nodup_update h.nodup (hcs.nodup_iff.mpr (h.nodup p)), fun hn hp => hmem.mpr (h.owner hn hp), ?_⟩
  exact fun hn => (h.count hn).trans (h.card_sharersIn habs fun q => by rw [hmem])

theorem Accounted.update (h : t.Accounted L) (id : NodeId)
    (ho : ∀ n, t.find? id = some n → (f n).owner = n.owner)
    (hc : ∀ n, t.find? id = some n → (f n).sharedCount = n.sharedCount) :
    (t.update id f).Accounted L := by
  have habs : ∀ p, ¬ (t.update id f).Live p → L p = [] := fun p hp =>
    h.absent p (by rwa [live_update] at hp)
  have hback : ∀ {x m}, (t.update id f).find? x = some m →
      ∃ n, t.find? x = some n ∧ m.owner = n.owner ∧ m.sharedCount = n.sharedCount := by
    intro x m hm
    obtain ⟨n, rfl, hn, rfl⟩ | ⟨-, hm⟩ := find?_update_cases hm
    · exact ⟨n, hn, ho n hn, hc n hn⟩
    · exact ⟨m, hm, rfl, rfl⟩
  refine ⟨h.tidy.update id f, habs, fun hm => live_update.mpr (h.live hm), h.nodup, ?_, ?_⟩
  · intro c m p hm hp
    obtain ⟨n, hn, hno, -⟩ := hback hm
    exact h.owner hn (hno ▸ hp)
  · intro c m hm
    obtain ⟨n, hn, hno, hnc⟩ := hback hm
    rw [hnc, h.count hn, hno]
    exact h.card_sharersIn habs fun _ => Iff.rfl

theorem find?_unlist (t : Tree α) (p c x : NodeId) :
    (t.unlist p c).find? x = if x = c then (t.find? x).map (fun n =>
      if n.isOwnedBy p then { n with owner := none }
      else { n with sharedCount := n.sharedCount - 1 }) else t.find? x :=
  find?_update t c x _

theorem Accounted.unlist (h : t.Accounted L) (hc : c ∈ L p) :
    (t.unlist p c).Accounted (Function.update L p ((L p).erase c)) := by
  have hl : ∀ x, (t.unlist p c).Live x ↔ t.Live x := fun x => live_update
  have hmem : ∀ {q d}, d ∈ Function.update L p ((L p).erase c) q ↔
      d ∈ L q ∧ ¬ (q = p ∧ d = c) := by
    intro q d
    by_cases hq : q = p
    · subst hq
      simp [(h.nodup q).mem_erase_iff, and_comm]
    · simp [hq]
  have habs : ∀ q, ¬ (t.unlist p c).Live q → Function.update L p ((L p).erase c) q = [] := by
    intro q hq
    rw [hl] at hq
    by_cases hqp : q = p
    · exact absurd (h.lister_live hc) (hqp ▸ hq)
    · rw [Function.update_of_ne hqp, h.absent q hq]
  refine ⟨h.tidy.update c _, habs, fun hm => (hl _).mpr (h.live (hmem.mp hm).1),
    nodup_update h.nodup ((h.nodup p).erase c), ?_, ?_⟩
  · intro d m q hm hq
    obtain ⟨n, rfl, hn, rfl⟩ | ⟨hd, hm⟩ := find?_update_cases hm
    · split at hq
      · cases hq
      · rename_i hno
        refine hmem.mpr ⟨h.owner hn hq, ?_⟩
        rintro ⟨rfl, -⟩
        exact hno (by simpa [Node.isOwnedBy] using hq)
    · exact hmem.mpr ⟨h.owner hm hq, fun he => hd he.2⟩
  · intro d m hm
    obtain ⟨n, rfl, hn, rfl⟩ | ⟨hd, hm⟩ := find?_update_cases hm
    · have hcount := h.count hn
      split
      · -- The owner lets go: it was not among those counted, and still is not.
        rename_i ho
        have ho : n.owner = some p := by simpa [Node.isOwnedBy] using ho
        refine hcount.trans (h.card_sharersIn habs fun q => ?_)
        rw [hmem, ho]
        grind
      · rename_i ho
        have ho : n.owner ≠ some p := by simpa [Node.isOwnedBy] using ho
        have hp : p ∈ t.sharersIn L d n.owner := h.mem_sharersIn.mpr ⟨hc, ho⟩
        change n.sharedCount - 1 = _
        rw [hcount, ← Finset.card_erase_of_mem hp]
        congr 1
        ext q
        rw [Finset.mem_erase, h.mem_sharersIn, mem_sharersIn_of_absent habs, hmem]
        grind
    · refine (h.count hm).trans (h.card_sharersIn habs fun q => ?_)
      rw [hmem]
      grind

theorem Accounted.adopt (h : t.Accounted L) (hp : t.Live p) (hn : t.find? c = some n)
    (ho : n.owner = none) (hc : c ∉ L p) (hcs : l.Perm (c :: L p)) (hfo : ∀ n, (f n).owner = some p)
    (hfc : ∀ n, (f n).sharedCount = n.sharedCount) :
    (t.update c f).Accounted (Function.update L p l) := by
  have hmem : ∀ {q d}, d ∈ Function.update L p l q ↔ d ∈ L q ∨ (q = p ∧ d = c) := by
    intro q d
    by_cases hq : q = p
    · subst hq
      simp [hcs.mem_iff, or_comm]
    · simp [hq]
  have habs : ∀ q, ¬ (t.update c f).Live q → Function.update L p l q = [] := by
    intro q hq
    rw [live_update] at hq
    have hqp : q ≠ p := fun he => hq (he ▸ hp)
    rw [Function.update_of_ne hqp, h.absent q hq]
  refine ⟨h.tidy.update c _, habs, ?_,
    nodup_update h.nodup (hcs.nodup_iff.mpr (List.nodup_cons.mpr ⟨hc, h.nodup p⟩)), ?_, ?_⟩
  · intro q d hd
    rw [live_update]
    rcases hmem.mp hd with hd | ⟨-, rfl⟩
    · exact h.live hd
    · exact ⟨n, hn⟩
  · intro d m q hm hq
    obtain ⟨k, rfl, -, rfl⟩ | ⟨-, hm⟩ := find?_update_cases hm
    · rw [hfo] at hq
      exact hmem.mpr (Or.inr ⟨(Option.some.inj hq).symm, rfl⟩)
    · exact hmem.mpr (Or.inl (h.owner hm hq))
  · intro d m hm
    obtain ⟨k, rfl, hk, rfl⟩ | ⟨hd, hm⟩ := find?_update_cases hm
    · obtain rfl : n = k := Option.some.inj (hn.symm.trans hk)
      rw [hfc, hfo, h.count hn, ho]
      refine h.card_sharersIn habs fun q => ?_
      rw [hmem]
      grind
    · refine (h.count hm).trans (h.card_sharersIn habs fun q => ?_)
      rw [hmem]
      grind

theorem find?_share (t : Tree α) (cs : List NodeId) (x : NodeId) :
    (t.share cs).find? x = (t.find? x).map fun n =>
      { n with sharedCount := n.sharedCount + cs.count x } := by
  unfold share
  induction cs generalizing t with
  | nil => simp
  | cons c cs ih =>
    rw [List.foldl_cons, ih, find?_update]
    by_cases hx : x = c
    · subst hx
      cases t.find? x <;> simp
      omega
    · cases t.find? x <;> simp [hx, Ne.symm hx]

theorem Tidy.share (h : t.Tidy) (cs : List NodeId) : (t.share cs).Tidy :=
  List.foldlRecOn cs _ h fun _ h c _ => h.update c _

theorem find?_enter (h : t.Tidy) (hcs : ∀ c ∈ cs, t.Live c) (x : NodeId) :
    ((t.insert n).2.share cs).find? x = if x = (t.insert n).1 then some n
      else (t.find? x).map fun m => { m with sharedCount := m.sharedCount + cs.count x } := by
  rw [find?_share, h.find?_insert]
  split
  · rename_i hx
    have hx0 : cs.count x = 0 :=
      List.count_eq_zero.mpr fun hm => not_live.mpr (h.insert_fresh n) (hx ▸ hcs x hm)
    simp [hx0]
  · rfl

theorem Accounted.enter (h : t.Accounted L) (ho : n.owner = none) (hz : n.sharedCount = 0)
    (hn : cs.Nodup) (hcs : ∀ c ∈ cs, t.Live c) :
    ((t.insert n).2.share cs).Accounted (Function.update L (t.insert n).1 cs) := by
  have hfresh : ¬ t.Live (t.insert n).1 := not_live.mpr (h.tidy.insert_fresh n)
  have hfind := find?_enter (n := n) h.tidy hcs
  generalize (t.insert n).1 = k at hfresh hfind ⊢
  have hk : L k = [] := h.absent k hfresh
  have hl : ∀ x, ((t.insert n).2.share cs).Live x ↔ x = k ∨ t.Live x := by
    intro x
    unfold Live
    rw [hfind]
    split <;> cases t.find? x <;> simp_all
  have hmem : ∀ {q d}, d ∈ Function.update L k cs q ↔ d ∈ L q ∨ (q = k ∧ d ∈ cs) := by
    intro q d
    by_cases hq : q = k
    · subst hq
      simp [hk]
    · simp [hq]
  have habs : ∀ q, ¬ ((t.insert n).2.share cs).Live q → Function.update L k cs q = [] := by
    intro q hq
    rw [hl, not_or] at hq
    rw [Function.update_of_ne hq.1, h.absent q hq.2]
  refine ⟨(h.tidy.insert n).share cs, habs, ?_, nodup_update h.nodup hn, ?_, ?_⟩
  · intro q d hd
    rw [hl]
    rcases hmem.mp hd with hd | ⟨-, hd⟩
    · exact Or.inr (h.live hd)
    · exact Or.inr (hcs d hd)
  · intro d m q hm hq
    rw [hfind] at hm
    split at hm
    · cases hm
      rw [ho] at hq
      cases hq
    · obtain ⟨m', hm', rfl⟩ := Option.map_eq_some_iff.mp hm
      exact hmem.mpr (Or.inl (h.owner hm' hq))
  · intro d m hm
    rw [hfind] at hm
    split at hm
    · rename_i hd
      subst hd
      cases hm
      rw [hz, eq_comm, Finset.card_eq_zero, Finset.eq_empty_iff_forall_notMem]
      intro q hq
      rw [mem_sharersIn_of_absent habs, hmem] at hq
      rcases hq.1 with hq | ⟨-, hq⟩
      · exact hfresh (h.live hq)
      · exact hfresh (hcs d hq)
    · rename_i hd
      obtain ⟨m', hm', rfl⟩ := Option.map_eq_some_iff.mp hm
      change m'.sharedCount + cs.count d = (sharersIn _ _ d m'.owner).card
      have hok : m'.owner ≠ some k := fun he => by simpa [hk] using h.owner hm' he
      by_cases hdc : d ∈ cs
      · -- The new node is one more that lists `d`.
        have hkn : k ∉ t.sharersIn L d m'.owner := fun he => by
          simpa [hk] using (h.mem_sharersIn.mp he).1
        rw [List.count_eq_one_of_mem hn hdc, h.count hm', ← Finset.card_insert_of_notMem hkn]
        congr 1
        ext q
        rw [Finset.mem_insert, h.mem_sharersIn, mem_sharersIn_of_absent habs, hmem]
        grind
      · rw [List.count_eq_zero.mpr hdc, Nat.add_zero, h.count hm']
        refine h.card_sharersIn habs fun q => ?_
        rw [hmem]
        grind

theorem Accounted.enter_owned (h : t.Accounted L) (hp : t.Live p) (ho : n.owner = some p)
    (hz : n.sharedCount = 0) (hn : cs.Nodup) (hcs : ∀ c ∈ cs, t.Live c) :
    ((t.insert n).2.share cs).Accounted (Function.update (Function.update L (t.insert n).1 cs) p
      ((t.insert n).1 :: L p)) := by
  have hname := t.insert_name n { n with owner := none }
  have hfresh : ¬ t.Live (t.insert n).1 := not_live.mpr (h.tidy.insert_fresh n)
  have hpk : p ≠ (t.insert n).1 := fun he => hfresh (he ▸ hp)
  -- Enter without an owner, then be taken on by `p`.
  have hin := h.enter (n := { n with owner := none }) rfl hz hn hcs
  have hfind := find?_enter (n := { n with owner := none }) h.tidy hcs
  rw [← hname] at hin hfind
  have hpl : ((t.insert { n with owner := none }).2.share cs).Live p := by
    obtain ⟨m, hm⟩ := hp
    exact ⟨_, by rw [hfind, if_neg hpk, hm]; rfl⟩
  have hown := hin.adopt
    (f := fun m => { m with owner := some p }) (l := (t.insert n).1 :: L p) hpl
    (by rw [hfind, if_pos rfl]) rfl
    (by rw [Function.update_of_ne hpk]; exact fun hm => hfresh (h.live hm))
    (by rw [Function.update_of_ne hpk]) (fun _ => rfl) (fun _ => rfl)
  refine hown.congr ((h.tidy.insert n).share cs) fun x => ?_
  rw [find?_update, hfind, find?_enter h.tidy hcs]
  split
  · simp [ho.symm]
  · rfl

theorem Accounted.remove (h : t.Accounted L) (id : NodeId) (hid : L id = [])
    (hu : ∀ p, id ∉ L p) : (t.erase id).Accounted L := by
  have hl : ∀ x, (t.erase id).Live x ↔ x ≠ id ∧ t.Live x := by
    intro x
    unfold Live
    rw [find?_erase]
    split <;> simp_all
  have habs : ∀ p, ¬ (t.erase id).Live p → L p = [] := by
    intro p hp
    by_cases he : p = id
    · rw [he, hid]
    · exact h.absent p fun hpl => hp ((hl p).mpr ⟨he, hpl⟩)
  have hback : ∀ {x m}, (t.erase id).find? x = some m → t.find? x = some m := by
    intro x m hm
    rw [find?_erase] at hm
    split at hm
    · cases hm
    · exact hm
  refine ⟨h.tidy.erase id, habs, fun {p c} hc => ?_, h.nodup, fun hm => h.owner (hback hm),
    fun hm => (h.count (hback hm)).trans (h.card_sharersIn habs fun _ => Iff.rfl)⟩
  rw [hl]
  exact ⟨fun he => hu p (he ▸ hc), h.live hc⟩

end Tree

end Flexbox
