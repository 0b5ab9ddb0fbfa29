import Flexbox.Proofs.Replacing
import Flexbox.Proofs.Histories

namespace Flexbox

variable {α : Type}

namespace Tree

variable [Scalar α] {t : Tree α} {p old new : NodeId} {n : Node α} {i : Nat}

theorem childrenOf_exchanged (hn : t.find? p = some n) (i : Nat) (c new : NodeId) :
    (t.exchanged p i c new).childrenOf p = n.children.set i new := by
  have hset : (t.update p fun n => { n with children := n.children.set i new }).childrenOf p =
      n.children.set i new :=
    childrenOf_write _ ⟨n, hn⟩ fun m hm => by
      obtain rfl : n = m := Option.some.inj (hn.symm.trans hm)
      rfl
  rw [exchanged, childrenOf_update (by intros; rfl), childrenOf_unlist,
    childrenOf_update fun m _ => by split <;> rfl, hset]

theorem ownerOf_exchanged (hl : t.Live new) (x : NodeId) :
    (t.exchanged p i old new).ownerOf x =
      if x = new then some p
      else if x = old ∧ t.ownerOf x = some p then none else t.ownerOf x := by
  have hforget : ((t.update p fun n => { n with children := n.children.set i new }).update old
      fun n => if n.isOwnedBy p then { n with geometry := .initial } else n).ownerOf =
      t.ownerOf := by
    rw [ownerOf_update fun n _ => by split <;> rfl, ownerOf_update (by intros; rfl)]
  have hlive : ((t.update p fun n => { n with children := n.children.set i new }).update old
      fun n => if n.isOwnedBy p then { n with geometry := .initial } else n).Live new :=
    live_update.mpr (live_update.mpr hl)
  rw [exchanged]
  generalize (t.update p fun n => { n with children := n.children.set i new }).update old _ = u
    at hforget hlive ⊢
  have hleft : (u.unlist p old).Live new := live_update.mpr hlive
  rw [ownerOf_adopt hleft (fun _ => rfl), ownerOf_unlist, hforget]

section

variable (h : t.Balanced) (hn : t.find? p = some n) (hi : n.children.idxOf? old = some i)
  (ho : t.ownerOf new = some p)

include h hn hi ho

omit [Scalar α] in
theorem Balanced.doubled (hne : new ≠ old) : 2 ≤ (n.children.set i new).count new := by
  obtain ⟨hlt, he, -⟩ := List.idxOf?_eq_some_iff.mp hi
  have hmem : new ∈ n.children := by
    rw [← childrenOf_eq hn]
    exact h.mem_of_ownerOf ho
  have hone := List.count_pos_iff.mpr hmem
  have hold : (n.children[i] == new) = false := by
    simpa [he] using hne.symm
  rw [List.count_set hlt, hold]
  simp
  omega

theorem Balanced.owned_exchanged {x : NodeId} (hx : x ∈ n.children.set i new) :
    (t.exchanged p i old new).ownerOf x = some p := by
  obtain ⟨hlt, he, -⟩ := List.idxOf?_eq_some_iff.mp hi
  have hall := (h.whole p).owned (h.mem_of_ownerOf ho) (by simp [owns, ho])
  rw [childrenOf_eq hn] at hall
  obtain ⟨d, hd, -⟩ := Option.bind_eq_some_iff.mp ho
  rw [ownerOf_exchanged ⟨d, hd⟩]
  split
  · rfl
  · rename_i hxn
    obtain ⟨j, hj, hxj⟩ := List.getElem_of_mem hx
    rw [List.length_set] at hj
    rw [List.getElem_set] at hxj
    split at hxj
    · exact absurd hxj.symm hxn
    · rename_i hij
      have hxo : x ≠ old := by
        rintro rfl
        exact hij ((h.nodup hn).getElem_inj_iff.mp (he.trans hxj.symm))
      have hmem : x ∈ n.children := hxj ▸ List.getElem_mem hj
      rw [if_neg fun hand => hxo hand.1]
      simpa [owns] using hall x hmem

end

end Tree

namespace Edit

open Tree

variable {t : Tree α} {p c : NodeId} {n : Node α}

theorem free_unlisted (hc : t.find? c = some n) (ho : n.owner = none) (hs : n.isShared = false) :
    (∀ x, x ≠ c → ((free c).apply t).2.childrenOf x = t.childrenOf x) ∧
      ¬ ((free c).apply t).2.Live c := by
  have hrun : (free c).apply t = ((forIn n.children PUnit.unit fun child _ => do
      modify fun t => t.unlist c child
      pure (ForInStep.yield PUnit.unit) : Edit α PUnit).apply (t.erase c)) := by
    simp [free, apply_bind, apply_node hc, hs, ho, hc]
  have step : ∀ x (rest : List NodeId) s, ((∀ y, y ≠ c → s.childrenOf y = t.childrenOf y) ∧
      ¬ s.Live c) → ∃ u, (do
        modify fun t => t.unlist c x
        pure (ForInStep.yield PUnit.unit) : Edit α _).apply s = (.ok (.yield ⟨⟩), u) ∧
      (∀ y, y ≠ c → u.childrenOf y = t.childrenOf y) ∧ ¬ u.Live c := by
    rintro x rest s ⟨hlists, hdead⟩
    refine ⟨s.unlist c x, by simp [Except.map], ?_, fun hl => hdead (live_update.mp hl)⟩
    rwa [childrenOf_unlist]
  obtain ⟨s, hloop, hlists, hdead⟩ := apply_forIn
    (I := fun _ s => (∀ y, y ≠ c → s.childrenOf y = t.childrenOf y) ∧ ¬ s.Live c) step n.children
    (t := t.erase c) ⟨fun x hx => by simp [childrenOf, find?_erase, hx],
      by simp [not_live, find?_erase]⟩
  rw [hrun, hloop]
  exact ⟨hlists, hdead⟩

variable [Scalar α] {old new : NodeId} {i : Nat}

theorem doubled_dangles (h : t.Balanced) (hn : t.find? p = some n)
    (hi : n.children.idxOf? old = some i) (ho : t.ownerOf new = some p) (hne : new ≠ old)
    (hnp : new ≠ p) (hs : t.sharers new = ∅) :
    new ∈ (((t.exchanged p i old new).soilUpwards p).after
        [.removeChild p new, .free new]).childrenOf p ∧
      ¬ (((t.exchanged p i old new).soilUpwards p).after [.removeChild p new, .free new]).Live
        new := by
  have htwice := h.doubled hn hi ho hne
  have howned := fun x => h.owned_exchanged hn hi ho (x := x)
  have hlist := childrenOf_exchanged hn i old new
  have hcount : ((t.exchanged p i old new).find? new).map Node.sharedCount =
      (t.find? new).map Node.sharedCount := by
    rw [exchanged, map_find?_update (by intros; rfl), unlist, find?_update_other _ _ hne,
      map_find?_update (by intro n _; split <;> rfl), map_find?_update (by intros; rfl)]
  obtain ⟨d, hd, -⟩ := Option.bind_eq_some_iff.mp ho
  have hzero : d.sharedCount = 0 := by rw [h.count hd, hs, Finset.card_empty]
  obtain ⟨hlive, hchildren, howners⟩ := soilUpwards_links (t.exchanged p i old new) p
  have hcount' := (map_find?_soilUpwards (by intro; rfl)
    (t.exchanged p i old new) p new).trans hcount
  generalize (t.exchanged p i old new).soilUpwards p = s at hlive hchildren howners hcount' ⊢
  rw [← hchildren] at hlist
  simp only [← howners] at howned
  -- The list begins with a child of its owner, so the newcomer is taken off without copying.
  obtain ⟨m, hm, hmem⟩ : ∃ m, s.find? p = some m ∧ new ∈ m.children := by
    rw [← mem_childrenOf, hlist]
    exact List.count_pos_iff.mp (by omega)
  rw [childrenOf_eq hm] at hlist
  obtain ⟨first, rest, hcs⟩ := List.exists_cons_of_ne_nil (List.ne_nil_of_mem hmem)
  have hfirst : s.ownerOf first = some p := howned first (by rw [← hlist, hcs]; simp)
  obtain ⟨k, hk, hko⟩ := Option.bind_eq_some_iff.mp hfirst
  obtain ⟨e, he⟩ : s.Live new := by
    obtain ⟨e, he, -⟩ := Option.bind_eq_some_iff.mp (howned new (hlist ▸ hmem))
    exact ⟨e, he⟩
  have hremove := removeOwned_run hm hcs hk (by simp [Node.isOwnedBy, hko]) hmem ⟨e, he⟩
  obtain ⟨hlive', hchildren', howners'⟩ := soilUpwards_links (s.cut p new) p
  have hkept : new ∈ ((s.cut p new).soilUpwards p).childrenOf p := by
    rw [hchildren', childrenOf_cut, if_pos rfl, childrenOf_eq hm, hlist]
    refine List.count_pos_iff.mp ?_
    rw [List.count_erase_self]
    omega
  obtain ⟨f, hf⟩ : ((s.cut p new).soilUpwards p).Live new := (hlive' new).mpr (live_cut.mpr ⟨e, he⟩)
  have hfo : f.owner = none := by
    rw [← ownerOf_eq hf, howners', ownerOf_cut, if_pos rfl]
  have hfs : f.sharedCount = 0 := by
    have hf' := map_find?_soilUpwards (g := Node.sharedCount) (by intro; rfl) (s.cut p new) p new
    rw [hf, cut, map_find?_update (by intros; rfl), find?_update_other _ _ hnp, hcount', hd] at hf'
    simpa [hzero] using hf'
  obtain ⟨hlists, hdead⟩ := free_unlisted hf hfo (by simp [Node.isShared, hfs])
  simp only [after, List.foldl_cons, List.foldl_nil, Call.edit, hremove]
  exact ⟨by rwa [hlists p hnp.symm], hdead⟩

end Edit

namespace Tree

variable [Scalar α] {t : Tree α} {p old new : NodeId}

theorem Sound.after (h : t.Sound) {calls : List (Call α)}
    (hc : ∀ c ∈ calls, c.Hookless ∧ ∀ t, c.Returns t) : (t.after calls).Sound :=
  List.foldlRecOn calls _ h fun t ht c hm => c.sound ht (hc c hm).1 ((hc c hm).2 t)

/-- A replacement that is made keeps lists, owners and counts in agreement unless the newcomer is a
sibling of the child it replaces. If they are kept, no removals and freeings that follow leave a
freed node on a list. If not, and no other node lists the newcomer, one removal and one freeing
do. -/
theorem replaceChild_balanced_iff (h : t.Balanced)
    (hok : ((Edit.replaceChild p old new).apply t).1 = .ok ⟨⟩) :
    (((Edit.replaceChild p old new).apply t).2.Balanced ↔
      (t.ownerOf new = some p → new = old)) ∧
    (t.Sound → (t.ownerOf new = some p → new = old) → ∀ calls : List (Call α),
      (∀ c ∈ calls, (∃ q x, c = .removeChild q x) ∨ ∃ x, c = .free x) →
      ∀ q, ∀ x ∈ (((Edit.replaceChild p old new).apply t).2.after calls).childrenOf q,
        (((Edit.replaceChild p old new).apply t).2.after calls).Live x) ∧
    (t.ownerOf new = some p → new ≠ old → new ≠ p → t.sharers new = ∅ →
      new ∈ (((Edit.replaceChild p old new).apply t).2.after
        [.removeChild p new, .free new]).childrenOf p ∧
      ¬ (((Edit.replaceChild p old new).apply t).2.after
        [.removeChild p new, .free new]).Live new) := by
  obtain ⟨e, he⟩ | ⟨n, i, d, hn, hi, -, -⟩ := Edit.replaceChild_cases t p old new
  · rw [he] at hok
    cases hok
  refine ⟨⟨fun hb ho => ?_, Edit.replaceChild_balanced h⟩, fun hs hnew calls hcalls q x hx => ?_,
    fun ho hne hnp hs => ?_⟩
  · by_contra hne
    rw [Edit.replaceChild_owned h hn hi ho] at hb
    have hlist := (soilUpwards_links (t.exchanged p i old new) p).2.1
    have hnodup := hb.accounted.nodup p
    dsimp only at hnodup
    rw [hlist, childrenOf_exchanged hn] at hnodup
    have hone := List.nodup_iff_count_le_one.mp hnodup new
    have htwo := h.doubled hn hi ho hne
    omega
  · have hmild : ∀ c ∈ calls, c.Hookless ∧ ∀ t, c.Returns t := fun c hc => by
      rcases hcalls c hc with ⟨q, x, rfl⟩ | ⟨x, rfl⟩ <;> exact ⟨trivial, fun _ => trivial⟩
    have hsound := (Edit.replaceChild_sound hs hnew).after hmild
    exact hsound.arena.accounted.live hx
  · rw [Edit.replaceChild_owned h hn hi ho]
    dsimp only
    exact Edit.doubled_dangles h hn hi ho hne hnp hs

def siblings : Tree Float32 :=
  (Tree.empty .initial).after [.newNode none, .newNode none, .newNode none,
    .addChild ⟨1, 1⟩ ⟨2, 1⟩, .addChild ⟨1, 1⟩ ⟨3, 1⟩]

theorem siblings_sound : siblings.Sound :=
  (Sound.empty rfl).after (by simp [Call.Hookless, Call.Returns])

theorem siblings_replaced :
    ((Edit.replaceChild ⟨1, 1⟩ ⟨2, 1⟩ ⟨3, 1⟩).apply siblings).1 = .ok ⟨⟩ ∧
    siblings.ownerOf ⟨3, 1⟩ = some ⟨1, 1⟩ ∧ siblings.sharers ⟨3, 1⟩ = ∅ := by
  decide +kernel

/-- The second child takes the place of the first, and the books do not balance. -/
theorem replaceChild_balanced_iff_siblings :
    siblings.Balanced ∧
    ((Edit.replaceChild ⟨1, 1⟩ ⟨2, 1⟩ ⟨3, 1⟩).apply siblings).1 = .ok ⟨⟩ ∧
    ¬ ((Edit.replaceChild ⟨1, 1⟩ ⟨2, 1⟩ ⟨3, 1⟩).apply siblings).2.Balanced := by
  obtain ⟨hrun, howner, -⟩ := siblings_replaced
  refine ⟨siblings_sound.arena.toBalanced, hrun, fun hb => ?_⟩
  have he := (replaceChild_balanced_iff siblings_sound.arena.toBalanced hrun).1.mp hb howner
  exact absurd he (by decide)

/-- Then the second child is taken off and freed, and the root still lists it. -/
theorem freed_sibling_still_listed :
    siblings.Balanced ∧
    ((Edit.replaceChild ⟨1, 1⟩ ⟨2, 1⟩ ⟨3, 1⟩).apply siblings).1.isOk = true ∧
    ⟨3, 1⟩ ∈ (((Edit.replaceChild ⟨1, 1⟩ ⟨2, 1⟩ ⟨3, 1⟩).apply siblings).2.after
      [.removeChild ⟨1, 1⟩ ⟨3, 1⟩, .free ⟨3, 1⟩]).childrenOf ⟨1, 1⟩ ∧
    (((Edit.replaceChild ⟨1, 1⟩ ⟨2, 1⟩ ⟨3, 1⟩).apply siblings).2.after
      [.removeChild ⟨1, 1⟩ ⟨3, 1⟩, .free ⟨3, 1⟩]).contains ⟨3, 1⟩ = false :=
  ⟨siblings_sound.arena.toBalanced, by rw [siblings_replaced.1]; rfl, by decide +kernel⟩

end Tree

end Flexbox
