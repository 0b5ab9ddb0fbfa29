import Flexbox.Proofs.Omission.Passes

namespace Flexbox

variable {α : Type} [Scalar α]

namespace Container

variable {l : List NodeId} {f g : NodeId → Node α} {h x : NodeId}

theorem loneFlexible_inflexible (hh : (f h).isFlexible = false) (found : Option NodeId) :
    loneFlexible ((l.filter (· != h)).map fun x => (x, f x)) found =
      loneFlexible (l.map fun x => (x, f x)) found := by
  induction l generalizing found with
  | nil => rfl
  | cons x l ih =>
    by_cases he : x = h
    · subst he
      rw [List.filter_cons_of_neg (by simp), List.map_cons, loneFlexible, hh]
      exact ih found
    · rw [List.filter_cons_of_pos (by simpa using he), List.map_cons, List.map_cons, loneFlexible,
        loneFlexible]
      simp only [ih]

theorem loneFlexible_of_none {found found' : Option NodeId}
    (hnone : loneFlexible ((l.filter (· != h)).map fun x => (x, f x)) found' = none)
    (hfound : found = found' ∨ found' = none ∧ found = some h) :
    loneFlexible (l.map fun x => (x, f x)) found = none ∨
      loneFlexible (l.map fun x => (x, f x)) found = some h := by
  induction l generalizing found found' with
  | nil =>
    obtain rfl : found' = none := hnone
    exact hfound.imp_right And.right
  | cons x l ih =>
    have hstart : found = none → found' = none := by
      rintro rfl
      exact hfound.elim Eq.symm And.left
    rw [List.map_cons, loneFlexible]
    by_cases he : x = h
    · subst he
      rw [List.filter_cons_of_neg (by simp)] at hnone
      by_cases hflex : (f x).isFlexible = true
      · simp only [hflex, Bool.not_true, Bool.false_eq_true, if_false]
        split
        · exact Or.inl rfl
        · rename_i hfree
          simp only [Bool.or_eq_true, not_or, Option.not_isSome_iff_eq_none] at hfree
          exact ih hnone (Or.inr ⟨hstart hfree.1.1, rfl⟩)
      · simp only [hflex, Bool.not_false, if_true]
        exact ih hnone hfound
    · rw [List.filter_cons_of_pos (by simpa using he), List.map_cons, loneFlexible] at hnone
      by_cases hflex : (f x).isFlexible = true
      · simp only [hflex, Bool.not_true, Bool.false_eq_true, if_false] at hnone ⊢
        split
        · exact Or.inl rfl
        · rename_i hfree
          simp only [Bool.or_eq_true, not_or, Option.not_isSome_iff_eq_none] at hfree
          simp only [hstart hfree.1.1, Option.isSome_none, Bool.false_or, hfree.1.2,
            hfree.2] at hnone
          exact ih hnone (Or.inl rfl)
      · simp only [hflex, Bool.not_false, if_true] at hnone ⊢
        exact ih hnone hfound

end Container

namespace Pass

variable {b p q : Pass α} {S H : Set NodeId} {h x : NodeId} {v v' : Visitor α}
  {c : Container α} {s t : α × Pass α}

theorem zeroOut_omits (fuel : Nat) (hclear : ∀ {p q fuel}, Lists b S h → Omits b S H h p q →
    Omits b S H h (zeroOut fuel h p) q) (hm : Omits b S H h p q) (hx : x ∈ S) :
    Omits b S H h (zeroOut fuel x p) (zeroOut fuel x q) := by
  induction fuel generalizing x p q with
  | zero => exact hm
  | succ fuel ih =>
    have hblank : Omits b S H h _ _ := hm.write hx (f := Node.emptied) (fun _ => rfl)
      (fun _ => rfl) fun _ => rfl
    rw [zeroOut_succ, zeroOut_succ]
    rw [hblank.ownChildren hx, hblank.ownChildren' hx, hblank.children (Or.inl hx),
      hblank.children' hx]
    exact walk_skipping hblank
      (fun r r' y hy hne hr => ih hr (hm.gap.closed x hx y hy hne))
      fun hh r r' hr => hclear ⟨x, hx, hh⟩ hr

theorem Omits.loneFlexible (hm : Omits b S H h p q) (hx : x ∈ S) {y : NodeId} (hy : y ≠ h) :
    (Container.loneFlexible (((b.children x).filter (· != h)).map fun c => (c, q.node c)) none ==
        some y) =
      (Container.loneFlexible ((b.children x).map fun c => (c, p.node c)) none == some y) := by
  have hmem : ∀ c ∈ (b.children x).filter (· != h), c ∈ S := fun c hc =>
    hm.gap.closed x hx c (List.mem_filter.mp hc).1 (bne_iff_ne.mp (List.mem_filter.mp hc).2)
  rw [Container.loneFlexible_turn fun c hc => (hm.facing (hmem c hc)).1]
  by_cases hh : h ∈ b.children x
  · rcases (hm.gap.ignored x hx hh).lone with hstiff | hnone
    · rw [Container.loneFlexible_inflexible]
      rw [hm.core h (Or.inr (hm.skipped hx hh).1)]
      exact hstiff
    · have hfaces := fun c hc => (hm.core c (Or.inl (hmem c hc))).faces
      rw [Container.loneFlexible_turn hfaces]
      have hnone : Container.loneFlexible (((b.children x).filter (· != h)).map fun c =>
        (c, b.node c)) none = none := hnone
      rw [hnone]
      rw [← Container.loneFlexible_turn hfaces] at hnone
      rcases Container.loneFlexible_of_none hnone (Or.inl rfl) with hn | hn
      · rw [hn]
      · rw [hn]
        simp [Ne.symm hy]
  · rw [Node.filter_of_not_mem hh]

end Pass

end Flexbox
