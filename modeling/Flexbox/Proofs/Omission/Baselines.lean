import Flexbox.Proofs.Omission.Bases

namespace Flexbox

variable {α : Type}

namespace Node

variable {n : Node α} {f g : NodeId → Node α} {l : List NodeId} {h : NodeId}
  {found : Option NodeId} {rest : List (NodeId × Node α)} {x : NodeId} {child : Node α}

theorem baselineChild?_cons :
    n.baselineChild? ((x, child) :: rest) found =
      if child.line != 0 then found
      else if child.isAbsolute then n.baselineChild? rest found
      else if n.prefers child then some x
      else n.baselineChild? rest (found.or (some x)) :=
  rfl

theorem baselineChild?_cons_without :
    (n.without h).baselineChild? ((x, child.without h) :: rest) found =
      if child.line != 0 then found
      else if child.isAbsolute then (n.without h).baselineChild? rest found
      else if n.prefers child then some x
      else (n.without h).baselineChild? rest (found.or (some x)) :=
  rfl

theorem baselineChild?_passed
    (hpass : h ∈ l → (f h).line = 0 ∧ ((f h).isAbsolute = true ∨
      n.prefers (f h) = false ∧ found.isSome = true))
    (hg : ∀ x ∈ l, x ≠ h → g x = (f x).without h) :
    (n.without h).baselineChild? ((l.filter (· != h)).map fun x => (x, g x)) found =
      n.baselineChild? (l.map fun x => (x, f x)) found := by
  induction l generalizing found with
  | nil => rfl
  | cons x l ih =>
    have hrest : ∀ y ∈ l, y ≠ h → g y = (f y).without h := fun y hy => hg y (by simp [hy])
    by_cases he : x = h
    · subst he
      obtain ⟨hline, hskip⟩ := hpass (by simp)
      rw [List.filter_cons_of_neg (by simp), List.map_cons, baselineChild?_cons, hline]
      rcases hskip with habs | ⟨hworse, hfound⟩
      · simp only [habs, bne_self_eq_false, Bool.false_eq_true, if_false, if_true]
        exact ih (fun _ => hpass (by simp)) hrest
      · obtain ⟨y, rfl⟩ := Option.isSome_iff_exists.mp hfound
        simp only [hworse, bne_self_eq_false, Bool.false_eq_true, if_false, Option.some_or,
          ite_self]
        exact ih (fun _ => hpass (by simp)) hrest
    · rw [List.filter_cons_of_pos (by simpa using he), List.map_cons, List.map_cons,
        hg x (by simp) he, baselineChild?_cons_without, baselineChild?_cons,
        ih (fun hh => hpass (by simp [hh])) hrest, ih (fun hh => ?_) hrest]
      obtain ⟨hline, hskip⟩ := hpass (by simp [hh])
      refine ⟨hline, hskip.imp_right fun hr => ⟨hr.1, ?_⟩⟩
      obtain ⟨y, rfl⟩ := Option.isSome_iff_exists.mp hr.2
      rfl

theorem baselineChild?_preceded (hline : (f h).line = 0)
    (hbefore : ∃ y ∈ l.takeWhile (· != h), (f y).isAbsolute = false ∧
      (n.prefers (f h) = true → n.prefers (f y) = true))
    (hg : ∀ x ∈ l, x ≠ h → g x = (f x).without h) :
    (n.without h).baselineChild? ((l.filter (· != h)).map fun x => (x, g x)) found =
      n.baselineChild? (l.map fun x => (x, f x)) found := by
  induction l generalizing found with
  | nil =>
    obtain ⟨y, hy, -⟩ := hbefore
    cases hy
  | cons x l ih =>
    obtain ⟨y, hy, hplaced, hbetter⟩ := hbefore
    have he : x ≠ h := by
      rintro rfl
      simp at hy
    have hrest : ∀ z ∈ l, z ≠ h → g z = (f z).without h := fun z hz => hg z (by simp [hz])
    rw [List.takeWhile_cons_of_pos (by simpa using he)] at hy
    rw [List.filter_cons_of_pos (by simpa using he), List.map_cons, List.map_cons,
      hg x (by simp) he, baselineChild?_cons_without, baselineChild?_cons]
    rcases List.mem_cons.mp hy with rfl | hy
    · simp only [hplaced, Bool.false_eq_true, if_false]
      cases hchosen : n.prefers (f y) with
      | true => rfl
      | false =>
        have hworse : n.prefers (f h) = false := by
          rw [← Bool.not_eq_true]
          intro hh
          rw [hbetter hh] at hchosen
          cases hchosen
        rw [baselineChild?_passed (fun _ => ⟨hline, Or.inr ⟨hworse, ?_⟩⟩) hrest]
        cases found <;> rfl
    · rw [ih ⟨y, hy, hplaced, hbetter⟩ hrest, ih ⟨y, hy, hplaced, hbetter⟩ hrest]

theorem levels_congr {m : Node α} (hs : m.style = n.style)
    (hl : ∀ c ∈ l, (g c).style = (f c).style) : m.Levels g l ↔ n.Levels f l := by
  have hchild : ∀ c, c ∈ l → (((g c).isAbsolute = false ∧ (g c).style.alignSelf = .baseline) ↔
      ((f c).isAbsolute = false ∧ (f c).style.alignSelf = .baseline)) := fun c hc => by
    simp only [isAbsolute, hl c hc]
  rw [Levels, Levels, hs]
  exact and_congr_right fun _ => or_congr_right <|
    exists_congr fun c => and_congr_right fun hc => hchild c hc

theorem levels_of_align (hx : x ∈ l) (hflow : (f x).isAbsolute = false)
    (halign : n.alignOf (f x) = .baseline) : n.Levels f l := by
  unfold alignOf at halign
  dsimp only at halign
  generalize hown : (if ((f x).style.alignSelf == .auto) = true then
    n.style.alignItems else (f x).style.alignSelf) = align at halign
  split at halign
  · cases halign
  rename_i hrow
  subst halign
  refine ⟨by simpa using hrow, ?_⟩
  split at hown
  · exact Or.inl hown
  · exact Or.inr ⟨x, hx, hflow, hown⟩

end Node

namespace Pass

variable [Scalar α] {b p q : Pass α} {S H : Set NodeId} {h x z : NodeId}
  {v v' : Visitor α} {c : Container α} {ys : List NodeId} {s t : JustifyState α}

theorem Omits.overlooks (hm : Omits b S H h p q) (hx : x ∈ S) (hh : h ∈ b.children x)
    (ho : (b.node x).Overlooks b.node h) : (p.node x).Overlooks p.node h := by
  have hH := hm.gap.inside ⟨x, hx, hh⟩
  have hcore := hm.core x (Or.inl hx)
  have hprefers : ∀ y ∈ S ∪ H,
      (p.node x).prefers (p.node y) = (b.node x).prefers (b.node y) := fun y hy => by
    rw [hcore, hm.core y hy]
    rfl
  refine ho.imp (fun hb => ?_) fun ho => ho.imp (fun ha => ?_) fun hr => ?_
  · rw [hcore]
    exact hb
  · rw [hm.isAbsolute (Or.inr hH), ha]
  · obtain ⟨y, hy, hplaced, hbetter⟩ := hr
    have hlist : (p.node x).children = (b.node x).children := hm.children (Or.inl hx)
    have hyS := hm.gap.closed x hx y ((List.takeWhile_prefix _).mem hy)
      (bne_iff_ne.mp (List.all_eq_true.mp List.all_takeWhile y hy))
    refine ⟨y, by rwa [hlist], by rw [hm.isAbsolute (Or.inl hyS), hplaced], ?_⟩
    rw [hprefers h (Or.inr hH), hprefers y (Or.inl hyS)]
    exact hbetter

theorem Omits.baselineChild? (hm : Omits b S H h p q) (hx : x ∈ S) (ho : Overlooked b S h x)
    (hnone : (p.node x).baseline = none) :
    (q.node x).baselineChild? ((q.node x).children.map fun y => (y, q.node y)) none =
      (p.node x).baselineChild? ((p.node x).children.map fun y => (y, p.node y)) none := by
  have hlist : (p.node x).children = b.children x := hm.children (Or.inl hx)
  have hnodes : ∀ y ∈ (p.node x).children, y ≠ h → q.node y = (p.node y).without h := by
    rw [hlist]
    exact fun y hy hne => hm.node y (hm.gap.closed x hx y hy hne)
  rw [hm.node x hx]
  by_cases hh : h ∈ b.children x
  · rcases hm.overlooks hx hh (ho x hx .refl hh) with hsome | habs | hbefore
    · rw [hnone] at hsome
      cases hsome
    · exact Node.baselineChild?_passed (fun _ => ⟨hm.line, Or.inl habs⟩) hnodes
    · exact Node.baselineChild?_preceded hm.line hbefore hnodes
  · exact Node.baselineChild?_passed (fun hno => absurd (hlist ▸ hno) hh) hnodes

theorem baselineWithin_omits (fuel : Nat) (ho : Overlooked b S h x) (hm : Omits b S H h p q)
    (hx : x ∈ S) :
    (baselineWithin fuel x q).1 = (baselineWithin fuel x p).1 ∧
      Omits b S H h (baselineWithin fuel x p).2 (baselineWithin fuel x q).2 := by
  induction fuel generalizing x with
  | zero =>
    rw [baselineWithin, baselineWithin, hm.node x hx]
    exact ⟨rfl, hm⟩
  | succ fuel ih =>
    rw [baselineWithin, baselineWithin]
    dsimp only
    rw [hm.same hx Node.baseline fun _ => rfl, hm.same hx Node.geometry fun _ => rfl,
      hm.same hx Node.config fun _ => rfl]
    cases hbase : (p.node x).baseline with
    | some baseline =>
      dsimp only
      have htell := hm.tell
        (.baseline baseline.label ((p.node x).geometry.measuredSize .width)
          ((p.node x).geometry.measuredSize .height))
        (.baseline baseline.label ((p.node x).geometry.measuredSize .width)
          ((p.node x).geometry.measuredSize .height))
      unfold Tree.log
      split
      · split
        · exact ⟨rfl, htell.tell _ _⟩
        · exact ⟨rfl, htell⟩
      · exact ⟨rfl, htell⟩
    | none =>
      dsimp only
      rw [hm.baselineChild? hx ho hbase]
      cases hfound : (p.node x).baselineChild?
          ((p.node x).children.map fun y => (y, p.node y)) none with
      | none => exact ⟨rfl, hm⟩
      | some y =>
        dsimp only
        -- The child found is one that both passes have.
        have hmem : y ∈ (b.children x).filter (· != h) := by
          rw [← hm.baselineChild? hx ho hbase] at hfound
          rw [← hm.children' hx]
          rcases baselineChild?_mem _ _ _ hfound with hno | hmem
          · cases hno
          · simpa [Pass.children] using hmem
        obtain ⟨hlisted, hne⟩ := List.mem_filter.mp hmem
        have hy : y ∈ S := hm.gap.closed x hx y hlisted (bne_iff_ne.mp hne)
        obtain ⟨hvalue, hnext⟩ := ih (fun z hz hl => ho z hz (.head hlisted hl)) hy
        rw [hvalue, hnext.same hy Node.geometry fun _ => rfl]
        exact ⟨rfl, hnext⟩

omit [Scalar α] in
theorem hasBaselineChildren_iff :
    p.hasBaselineChildren x = true ↔ (p.node x).Levels p.node (p.children x) := by
  have hflow : ∀ n : Node α, n.isAbsolute = false ↔ n.style.positionType = .relative := by
    intro n
    unfold Node.isAbsolute
    cases n.style.positionType <;> simp
  unfold hasBaselineChildren
  dsimp only
  split
  · simp [Node.Levels, *]
  · simp_all [Node.Levels, Pass.children]

section

variable (hm : Omits b S H h p q)

include hm

theorem Omits.levels_iff (hx : x ∈ S) :
    (p.node x).Levels p.node (p.children x) ↔ (b.node x).Levels b.node (b.children x) := by
  rw [hm.children (Or.inl hx)]
  refine Node.levels_congr (hm.style (Or.inl hx)) fun c hc => hm.style ?_
  by_cases he : c = h
  · exact Or.inr (he ▸ hm.gap.inside ⟨x, hx, he ▸ hc⟩)
  · exact Or.inl (hm.gap.closed x hx c hc he)

theorem Omits.levels_without_iff (hx : x ∈ S) :
    (q.node x).Levels q.node (q.children x) ↔
      (b.node x).Levels b.node ((b.children x).filter (· != h)) := by
  have hstyle : ∀ y ∈ S, (q.node y).style = (b.node y).style := fun y hy => by
    rw [hm.same hy Node.style fun _ => rfl, hm.style (Or.inl hy)]
  rw [hm.children' hx]
  refine Node.levels_congr (hstyle x hx) fun c hc => hstyle c ?_
  obtain ⟨hc, hne⟩ := List.mem_filter.mp hc
  exact hm.gap.closed x hx c hc (bne_iff_ne.mp hne)

theorem Omits.hasBaselineChildren (hx : x ∈ S) :
    q.hasBaselineChildren x = p.hasBaselineChildren x := by
  rw [Bool.eq_iff_iff, hasBaselineChildren_iff, hasBaselineChildren_iff, hm.levels_iff hx,
    hm.levels_without_iff hx]
  constructor
  · rintro ⟨hrow, hitems | ⟨c, hc, haligned⟩⟩
    · exact ⟨hrow, Or.inl hitems⟩
    · exact ⟨hrow, Or.inr ⟨c, (List.mem_filter.mp hc).1, haligned⟩⟩
  · intro hlevel
    by_cases hh : h ∈ b.children x
    · exact (hm.gap.ignored x hx hh).aligned hlevel
    · rwa [Node.filter_of_not_mem hh]

theorem Omits.overlooked_of_child (hz : z ∈ S) (hx : x ∈ b.children z) (hne : x ≠ h)
    (hflow : (p.node x).isInFlow = true) (halign : (p.node z).alignOf (p.node x) = .baseline) :
    Overlooked b S h x := by
  have hplaced : (p.node x).isAbsolute = false := by
    simp only [Node.isInFlow, Bool.and_eq_true, Bool.not_eq_true'] at hflow
    exact hflow.2
  refine hm.gap.overlooked z hz ((hm.levels_iff hz).mp ?_) x hx hne
  exact Node.levels_of_align (by rwa [hm.children (Or.inl hz)]) hplaced halign

end

end Pass

end Flexbox
