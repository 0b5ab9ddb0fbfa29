import Flexbox.Proofs.Freezing.Conserving

namespace Flexbox

namespace Space

def withoutAll (space : Space ℚ) (items : List (FlexItem ℚ)) : Space ℚ :=
  items.foldl without space

variable {space : Space ℚ} {items items' : List (FlexItem ℚ)}

theorem without_right_comm (space : Space ℚ) (i j : FlexItem ℚ) :
    (space.without i).without j = (space.without j).without i := by
  unfold without
  by_cases h : space.free < 0
  · simp only [h, if_true, sub_right_comm]
  · simp only [h, if_false, sub_right_comm]

theorem withoutAll_perm (h : items.Perm items') (space : Space ℚ) :
    space.withoutAll items = space.withoutAll items' :=
  h.foldl_eq' (fun i _ j _ s => without_right_comm s i j) space

theorem withoutAll_append (space : Space ℚ) (items items' : List (FlexItem ℚ)) :
    space.withoutAll (items ++ items') = (space.withoutAll items).withoutAll items' :=
  List.foldl_append

end Space

namespace FlexItem

variable {i : FlexItem ℚ} {space space' : Space ℚ}

def breaks (space : Space ℚ) (i : FlexItem ℚ) : Bool := (i.violation? space).isSome

def stiffened (space : Space ℚ) (i : FlexItem ℚ) : FlexItem ℚ :=
  match i.violation? space with
  | none => i
  | some size => { i with frozen := some size }

theorem stiffened_id (space : Space ℚ) (i : FlexItem ℚ) : (i.stiffened space).id = i.id := by
  unfold stiffened
  split <;> rfl

theorem stiffened_inj (h : i.stiffened space = i.stiffened space') :
    i.violation? space = i.violation? space' := by
  have hopen : ∀ {space : Space ℚ} {size : ℚ}, i.violation? space = some size → i.frozen = none :=
    fun hv => (violation?_eq_some.mp hv).1
  have hfrozen := congrArg FlexItem.frozen h
  unfold stiffened at hfrozen
  cases hv : i.violation? space with
  | none =>
    cases hv' : i.violation? space' with
    | none => rfl
    | some size => simp [hv, hv', hopen hv'] at hfrozen
  | some size =>
    cases hv' : i.violation? space' with
    | none => simp [hv, hv', hopen hv] at hfrozen
    | some size' => simpa [hv, hv'] using hfrozen

def taking (space : Space ℚ) (i : FlexItem ℚ) : ℚ :=
  match i.violation? space with
  | none => 0
  | some size => size - i.basis

end FlexItem

open FlexItem (breaks stiffened taking)

namespace FreezeRound

theorem step_seen (round : FreezeRound ℚ) (i : FlexItem ℚ) :
    (round.step i).seen = i.stiffened round.space :: round.seen := by
  unfold step stiffened
  cases i.violation? round.space <;> rfl

theorem foldl_together (space : Space ℚ) (items before : List (FlexItem ℚ)) (round : FreezeRound ℚ)
    (hspace : round.space = space.withoutAll before)
    (h : ∀ front i rest, items = front ++ i :: rest →
      i.violation? (space.withoutAll (before ++ front.filter (breaks space))) =
        i.violation? space) :
    items.foldl step round =
      { space := space.withoutAll (before ++ items.filter (breaks space))
        taken := round.taken + (items.map (taking space)).sum
        frozeAny := round.frozeAny || items.any (breaks space)
        seen := (items.map (stiffened space)).reverse ++ round.seen } := by
  induction items generalizing before round with
  | nil => simp [← hspace]
  | cons i items ih =>
    have hi : i.violation? round.space = i.violation? space := by
      have hfirst := h [] i items rfl
      rwa [List.filter_nil, List.append_nil, ← hspace] at hfirst
    rw [List.foldl_cons]
    cases hv : i.violation? space with
    | none =>
      rw [hv] at hi
      rw [step_kept hi]
      refine (ih before { round with seen := i :: round.seen } hspace
        fun front j rest he => ?_).trans ?_
      · have hlater := h (i :: front) j rest (by rw [he]; rfl)
        rwa [List.filter_cons_of_neg (by simp [breaks, hv])] at hlater
      · simp [breaks, taking, stiffened, hv]
    | some size =>
      rw [hv] at hi
      rw [step_broken hi]
      refine (ih (before ++ [i]) _ ?_ fun front j rest he => ?_).trans ?_
      · rw [Space.withoutAll_append, ← hspace]
        rfl
      · have hlater := h (i :: front) j rest (by rw [he]; rfl)
        rwa [List.filter_cons_of_pos (by simp [breaks, hv]), List.append_cons] at hlater
      · simp [breaks, taking, stiffened, hv, add_assoc]

end FreezeRound

namespace FlexState

variable {s s' s'' : FlexState ℚ}

/-- The same items and space, the items in another order. -/
structure Shuffles (s s' : FlexState ℚ) : Prop where
  space : s.space = s'.space
  items : s.items.Perm s'.items

/-- No item minds which of the others that break their bounds are frozen before it. -/
def Steady (s : FlexState ℚ) : Prop :=
  ∀ i others, (i :: others).Subperm s.items → (∀ j ∈ others, j.breaks s.space = true) →
    i.violation? (s.space.withoutAll others) = i.violation? s.space

theorem Steady.shuffles (h : s.Steady) (hs : s.Shuffles s') : s'.Steady := by
  intro i others hsub hbreaks
  rw [← hs.space] at hbreaks ⊢
  exact h i others (hsub.trans hs.items.symm.subperm) hbreaks

/-- The line after a round that looks at all items at once. -/
def together (s : FlexState ℚ) : FlexState ℚ :=
  ⟨s.items.map (stiffened s.space),
    { s.space.withoutAll (s.items.filter (breaks s.space)) with
      free := s.space.free - (s.items.map (taking s.space)).sum }⟩

theorem Shuffles.together (h : s.Shuffles s') : s.together.Shuffles s'.together := by
  unfold FlexState.together
  rw [h.space]
  refine ⟨?_, h.items.map _⟩
  rw [Space.withoutAll_perm (h.items.filter _), (h.items.map _).sum_eq]

theorem subperm_front (p : FlexItem ℚ → Bool) (front : List (FlexItem ℚ)) (i : FlexItem ℚ)
    (rest : List (FlexItem ℚ)) : (i :: front.filter p).Subperm (front ++ i :: rest) :=
  (List.perm_append_singleton i _).symm.subperm.trans
    (List.filter_sublist.append (List.singleton_sublist.mpr List.mem_cons_self)).subperm

theorem Steady.walk_eq (h : s.Steady) :
    s.walk =
      { space := s.space.withoutAll (s.items.filter (breaks s.space))
        taken := (s.items.map (taking s.space)).sum
        frozeAny := s.items.any (breaks s.space)
        seen := (s.items.map (stiffened s.space)).reverse } := by
  refine (FreezeRound.foldl_together s.space s.items [] _ rfl fun front i rest he => ?_).trans
    (by simp)
  refine h i _ ?_ fun j hj => (List.mem_filter.mp hj).2
  exact he ▸ subperm_front (breaks s.space) front i rest

theorem Steady.next_eq (h : s.Steady) : s.next = s.together := by
  have hfree := FreezeRound.foldl_free s.items ⟨s.space, 0, false, []⟩
  change s.walk.space.free = s.space.free at hfree
  unfold next FlexState.together
  rw [hfree, h.walk_eq]
  simp

theorem mem_next (space : Space ℚ) (front : List (FlexItem ℚ)) (i : FlexItem ℚ)
    (rest : List (FlexItem ℚ)) :
    i.stiffened (front.foldl FreezeRound.step ⟨space, 0, false, []⟩).space ∈
      (FlexState.next ⟨front ++ i :: rest, space⟩).items := by
  obtain ⟨done, hseen, -⟩ := FreezeRound.foldl_seen rest
    ((front.foldl FreezeRound.step ⟨space, 0, false, []⟩).step i)
  refine List.mem_reverse.mpr ?_
  change _ ∈ ((front ++ i :: rest).foldl FreezeRound.step ⟨space, 0, false, []⟩).seen
  rw [List.foldl_append, List.foldl_cons, hseen, FreezeRound.step_seen]
  simp

theorem steady_of_shuffles (hids : (s.items.map FlexItem.id).Nodup)
    (h : ∀ s', s.Shuffles s' → s.next.Shuffles s'.next) : s.Steady := by
  intro i others
  -- The fewest others that an item would mind are all frozen if they come first.
  induction hn : others.length using Nat.strong_induction_on generalizing i others with
  | _ n ih =>
    rintro ⟨chosen, hchosen, hsub⟩ hbreaks
    obtain ⟨rest, hrest⟩ := hsub.exists_perm_append
    have hperm : s.items.Perm (i :: (others ++ rest)) := hrest.trans (hchosen.append_right rest)
    have hothers : others.foldl FreezeRound.step ⟨s.space, 0, false, []⟩ =
        { space := s.space.withoutAll others
          taken := 0 + (others.map (taking s.space)).sum
          frozeAny := false || others.any (breaks s.space)
          seen := (others.map (stiffened s.space)).reverse ++ [] } := by
      have hall : others.filter (breaks s.space) = others := List.filter_eq_self.mpr hbreaks
      refine (FreezeRound.foldl_together s.space others [] _ rfl fun front j later he => ?_).trans
        (by rw [List.nil_append, hall])
      refine ih _ ?_ j _ rfl ?_ fun k hk => (List.mem_filter.mp hk).2
      · have hle := front.length_filter_le (breaks s.space)
        have hlt : others.length = front.length + (later.length + 1) := by simp [he]
        rw [List.nil_append]
        omega
      · have hin : others.Subperm s.items :=
          (List.sublist_cons_self i others).subperm.trans ⟨chosen, hchosen, hsub⟩
        exact (he ▸ subperm_front (breaks s.space) front j later).trans hin
    -- Coming first and coming last among them, the item becomes the same.
    have hfirst : i.stiffened s.space ∈ s.next.items :=
      (h ⟨i :: (others ++ rest), s.space⟩ ⟨rfl, hperm⟩).items.mem_iff.mpr
        (mem_next s.space [] i (others ++ rest))
    have hlast : i.stiffened (s.space.withoutAll others) ∈ s.next.items := by
      refine (h ⟨others ++ i :: rest, s.space⟩
        ⟨rfl, hperm.trans List.perm_middle.symm⟩).items.mem_iff.mpr ?_
      have hmem := mem_next s.space others i rest
      rwa [hothers] at hmem
    have hids : (s.next.items.map FlexItem.id).Nodup := by
      rwa [FlexItem.Stiffens.map_eq (fun _ _ => rfl) s.next_items.1]
    refine FlexItem.stiffened_inj (List.inj_on_of_nodup_map hids hlast hfirst ?_)
    rw [FlexItem.stiffened_id, FlexItem.stiffened_id]

theorem shuffles_next_iff (hids : (s.items.map FlexItem.id).Nodup) :
    (∀ s', s.Shuffles s' → s.next.Shuffles s'.next) ↔ s.Steady := by
  refine ⟨steady_of_shuffles hids, fun h s' hs => ?_⟩
  rw [h.next_eq, (h.shuffles hs).next_eq]
  exact hs.together

theorem steady_iff_sublists : s.Steady ↔ ∀ n : Fin s.items.length,
    ∀ others ∈ ((s.items.eraseIdx n).filter (breaks s.space)).sublists,
      (s.items.get n).violation? (s.space.withoutAll others) =
        (s.items.get n).violation? s.space := by
  refine ⟨fun h n others ho => ?_, fun h i others hsub hbreaks => ?_⟩
  · have hsub := List.mem_sublists.mp ho
    refine h _ others ?_ fun j hj => (List.mem_filter.mp (hsub.subset hj)).2
    exact (((hsub.trans List.filter_sublist).cons_cons _).subperm).trans
      (List.getElem_cons_eraseIdx_perm n.isLt).subperm
  · obtain ⟨n, rfl⟩ := List.mem_iff_get.mp (hsub.subset List.mem_cons_self)
    have hothers : others.Subperm (s.items.eraseIdx n) :=
      List.subperm_cons _ |>.mp (hsub.trans (List.getElem_cons_eraseIdx_perm n.isLt).symm.subperm)
    obtain ⟨chosen, hchosen, hin⟩ := hothers.filter (breaks s.space)
    rw [List.filter_eq_self.mpr hbreaks] at hchosen
    rw [← Space.withoutAll_perm hchosen]
    exact h n chosen (List.mem_sublists.mpr hin)

instance (s : FlexState ℚ) : Decidable s.Steady := decidable_of_iff _ steady_iff_sublists.symm

theorem Shuffles.after (hs : s.Shuffles s') {k : Nat} (h : ∀ j < k, (s.after j).Steady) :
    (s.after k).Shuffles (s'.after k) := by
  induction k with
  | zero => exact hs
  | succ k ih =>
    have hk := ih fun j hj => h j (Nat.lt_succ_of_lt hj)
    have hsteady := h k (Nat.lt_succ_self k)
    rw [after_succ, after_succ, hsteady.next_eq, (hsteady.shuffles hk).next_eq]
    exact hk.together

theorem Steady.frozeAny_eq (h : s.Steady) (hs : s.Shuffles s') :
    s'.walk.frozeAny = s.walk.frozeAny := by
  rw [(h.shuffles hs).walk_eq, h.walk_eq, hs.space]
  exact (hs.items.any_eq).symm

theorem Shuffles.freeze (hs : s.Shuffles s') {f f' : Frozen ℚ}
    (hf : f = Flexbox.freeze s.items.length s.items s.space 0)
    (hf' : f' = Flexbox.freeze s'.items.length s'.items s'.space 0)
    (h : ∀ k < f.rounds, (s.after k).Steady) :
    f'.rounds = f.rounds ∧ f.space = f'.space ∧ f.items.Perm f'.items := by
  obtain ⟨k, hrun, -, hbefore, hlast, -⟩ := freeze_settled sub_zero s
  obtain ⟨k', hrun', -, hbefore', hlast', -⟩ := freeze_settled sub_zero s'
  rw [hrun _ (Nat.le_refl _)] at hf
  rw [hrun' _ (Nat.le_refl _)] at hf'
  subst hf hf'
  have hsame : ∀ j ≤ k, (s'.after j).walk.frozeAny = (s.after j).walk.frozeAny := fun j hj =>
    (h j (Nat.lt_succ_of_le hj)).frozeAny_eq (hs.after fun l hl => h l (by
      change l < k + 1
      omega))
  obtain rfl : k' = k := by
    rcases Nat.lt_trichotomy k' k with hlt | heq | hgt
    · rw [hsame k' hlt.le, hbefore k' hlt] at hlast'
      cases hlast'
    · exact heq
    · rw [← hsame k (Nat.le_refl k), hbefore' k hgt] at hlast
      cases hlast
  have hend := hs.after fun j (hj : j < k') => h j (Nat.lt_succ_of_lt hj)
  exact ⟨rfl, hend.space, hend.items⟩

end FlexState

namespace Line

/-- The same items, sums and space, the items in another order. -/
structure Shuffles (line line' : Line ℚ) : Prop where
  items : line.items.Perm line'.items
  consumed : line.consumed = line'.consumed
  space : line.space = line'.space

variable {line line' line'' : Line ℚ}

theorem Shuffles.refl (line : Line ℚ) : line.Shuffles line := ⟨.refl _, rfl, rfl⟩

theorem Shuffles.trans (h : line.Shuffles line') (h' : line'.Shuffles line'') :
    line.Shuffles line'' :=
  ⟨h.items.trans h'.items, h.consumed.trans h'.consumed, h.space.trans h'.space⟩

def enter (c : Container ℚ) (ownerMain : Extent ℚ) (line : Line ℚ) (child : NodeId × Node ℚ) :
    Line ℚ :=
  if child.2.isInFlow then
    line.add child.1 child.2 (child.2.clampedBasis c.mainAxis ownerMain)
      (child.2.marginFor c.mainAxis c.innerWidth)
  else line.skip

theorem fill_eq_foldl (c : Container ℚ) (ownerMain innerMain : Extent ℚ)
    (children : List (NodeId × Node ℚ)) (line : Line ℚ) :
    fill c false ownerMain innerMain children line = children.foldl (enter c ownerMain) line := by
  induction children generalizing line with
  | nil => rfl
  | cons child children ih =>
    rw [List.foldl_cons, ← ih, fill, enter]
    cases child.2.isInFlow <;> rfl

theorem add_space (line : Line ℚ) (x : NodeId) (n : Node ℚ) (basis margin : ℚ) :
    (line.add x n basis margin).space =
      { line.space with
        grow := line.space.grow + if n.isFlexible then n.resolveGrow else 0
        shrink := line.space.shrink +
          if n.isFlexible then -n.resolveShrink * n.geometry.flexBasis.getD 0 else 0 } := by
  unfold add
  cases n.isFlexible <;> simp

theorem Shuffles.enter (h : line.Shuffles line') (c : Container ℚ) (ownerMain : Extent ℚ)
    (child : NodeId × Node ℚ) :
    (line.enter c ownerMain child).Shuffles (line'.enter c ownerMain child) := by
  unfold Line.enter
  cases child.2.isInFlow with
  | true =>
    refine ⟨h.items.append_right _, ?_, ?_⟩
    · exact congrArg (· + _) h.consumed
    · rw [if_pos rfl, if_pos rfl, add_space, add_space, h.space]
  | false => exact ⟨h.items, h.consumed, h.space⟩

theorem enter_swap (c : Container ℚ) (ownerMain : Extent ℚ) (line : Line ℚ)
    (x y : NodeId × Node ℚ) :
    ((line.enter c ownerMain x).enter c ownerMain y).Shuffles
      ((line.enter c ownerMain y).enter c ownerMain x) := by
  unfold Line.enter
  cases x.2.isInFlow with
  | false => cases y.2.isInFlow <;> exact ⟨.refl _, rfl, rfl⟩
  | true =>
    cases y.2.isInFlow with
    | false => exact ⟨.refl _, rfl, rfl⟩
    | true =>
      simp only [if_true]
      refine ⟨?_, ?_, ?_⟩
      · change (line.items ++ [x.1] ++ [y.1]).Perm (line.items ++ [y.1] ++ [x.1])
        rw [List.append_assoc, List.append_assoc]
        exact (List.Perm.swap y.1 x.1 []).append_left line.items
      · exact add_right_comm _ _ _
      · rw [add_space, add_space, add_space, add_space]
        simp only [add_right_comm]

theorem Shuffles.foldl_enter (h : line.Shuffles line') (c : Container ℚ) (ownerMain : Extent ℚ)
    (children : List (NodeId × Node ℚ)) :
    (children.foldl (Line.enter c ownerMain) line).Shuffles
      (children.foldl (Line.enter c ownerMain) line') := by
  induction children generalizing line line' with
  | nil => exact h
  | cons child _ ih => exact ih (h.enter c ownerMain child)

theorem foldl_enter_perm {children children' : List (NodeId × Node ℚ)}
    (hc : children.Perm children') (c : Container ℚ) (ownerMain : Extent ℚ) (line : Line ℚ) :
    (children.foldl (enter c ownerMain) line).Shuffles
      (children'.foldl (enter c ownerMain) line) := by
  induction hc generalizing line with
  | nil => exact .refl line
  | cons child _ ih => exact ih _
  | swap x y rest => exact (enter_swap c ownerMain line y x).foldl_enter c ownerMain rest
  | trans _ _ ih ih' => exact (ih line).trans (ih' line)

theorem foldl_enter_items (c : Container ℚ) (ownerMain : Extent ℚ)
    (children : List (NodeId × Node ℚ)) (line : Line ℚ) :
    (children.foldl (enter c ownerMain) line).items =
      line.items ++ (children.filter fun child => child.2.isInFlow).map Prod.fst := by
  induction children generalizing line with
  | nil => simp
  | cons child children ih =>
    rw [List.foldl_cons, ih, enter]
    cases h : child.2.isInFlow <;> simp [h, skip, add]

theorem collect_perm {xs ys : List NodeId} (h : xs.Perm ys) (c : Container ℚ)
    (ownerMain innerMain : Extent ℚ) (f : NodeId → Node ℚ) :
    (collect c false ownerMain innerMain (xs.map fun x => (x, f x))).Shuffles
      (collect c false ownerMain innerMain (ys.map fun x => (x, f x))) := by
  unfold collect
  rw [fill_eq_foldl, fill_eq_foldl]
  obtain ⟨hitems, hconsumed, hspace⟩ := foldl_enter_perm (h.map fun x => (x, f x)) c ownerMain empty
  refine ⟨hitems, hconsumed, ?_⟩
  dsimp only
  rw [hspace]

end Line

namespace Pass

variable {p : Pass ℚ} {c : Container ℚ} {xs ys : List NodeId}

/-- The items of a container with one line, which is `innerMain` long. -/
def soleState (p : Pass ℚ) (c : Container ℚ) (innerMain : Extent ℚ) (children : List NodeId) :
    FlexState ℚ :=
  let collected := p.collectLine c innerMain children 0
  collected.2.flexState c innerMain { collected.1 with space := { collected.1.space with
    free := Container.freeSpace innerMain false collected.1.consumed } }

theorem soleState_items (p : Pass ℚ) (c : Container ℚ) (innerMain : Extent ℚ)
    (children : List NodeId) : (p.soleState c innerMain children).items =
      (p.collectLine c innerMain children 0).1.items.map
        fun x => c.flexItem innerMain x (p.node x) :=
  List.map_congr_left fun x _ => collectLine_items_eq Prod.mk.eta.symm innerMain x

theorem soleState_perm (hwrap : (p.node c.id).style.flexWrap = .noWrap) (h : xs.Perm ys)
    (innerMain : Extent ℚ) :
    (p.soleState c innerMain xs).Shuffles (p.soleState c innerMain ys) := by
  have hline : (p.collectLine c innerMain xs 0).1.Shuffles (p.collectLine c innerMain ys 0).1 := by
    unfold collectLine
    rw [hwrap]
    exact Line.collect_perm h c c.ownerMain innerMain p.node
  refine ⟨?_, ?_⟩
  · unfold soleState flexState
    dsimp only
    rw [hline.consumed, hline.space]
  · rw [soleState_items, soleState_items]
    exact hline.items.map _

theorem soleState_ids (hwrap : (p.node c.id).style.flexWrap = .noWrap) {children : List NodeId}
    (h : children.Nodup) (innerMain : Extent ℚ) :
    ((p.soleState c innerMain children).items.map FlexItem.id).Nodup := by
  have hitems : (p.collectLine c innerMain children 0).1.items =
      children.filter fun x => (p.node x).isInFlow := by
    unfold collectLine
    rw [hwrap]
    change (Line.fill c false c.ownerMain innerMain _ .empty).items = _
    rw [Line.fill_eq_foldl, Line.foldl_enter_items, List.filter_map, List.map_map]
    exact List.map_id _
  rw [soleState_items, hitems, List.map_map]
  exact (List.map_id _).symm ▸ h.filter _

/-- The sizes of the items of one line do not depend on their order as long as the line is steady,
and the line is steady in a round if and only if the round comes out the same in every order. -/
theorem flexing_ignores_order (hwrap : (p.node c.id).style.flexWrap = .noWrap)
    {xs ys : List NodeId} (hnodup : xs.Nodup) (hperm : xs.Perm ys) (innerMain : Extent ℚ)
    {s s' : FlexState ℚ} (hs : s = p.soleState c innerMain xs)
    (hs' : s' = p.soleState c innerMain ys) {f f' : Frozen ℚ}
    (hf : f = freeze s.items.length s.items s.space 0)
    (hf' : f' = freeze s'.items.length s'.items s'.space 0) :
    (∀ k, (∀ t, (s.after k).Shuffles t → (s.after (k + 1)).Shuffles t.next) ↔
      (s.after k).Steady) ∧
    ((∀ k < f.rounds, (s.after k).Steady) → f'.rounds = f.rounds ∧
      (f.items.map fun i => (i.id, i.finalSize f.space)).Perm
        (f'.items.map fun i => (i.id, i.finalSize f'.space))) := by
  have hsame : s.Shuffles s' := hs ▸ hs' ▸ soleState_perm hwrap hperm innerMain
  refine ⟨fun k => ?_, fun hsteady => ?_⟩
  · rw [FlexState.after_succ]
    refine FlexState.shuffles_next_iff ?_
    rw [FlexItem.Stiffens.map_eq (fun _ _ => rfl) (s.after_items k), hs]
    exact soleState_ids hwrap hnodup innerMain
  · obtain ⟨hrounds, hspace, hitems⟩ := hsame.freeze hf hf' hsteady
    refine ⟨hrounds, ?_⟩
    rw [hspace]
    exact hitems.map _

/-- A row of two items that grow alike, each up to a bound. -/
def boundedPair (first second : Length ℚ) : Tree ℚ :=
  (Tree.empty .initial).after [.newNode none, .newNode none, .newNode none,
    .addChild ⟨1, 1⟩ ⟨2, 1⟩, .addChild ⟨1, 1⟩ ⟨3, 1⟩,
    .updateStyle ⟨1, 1⟩ fun s => { s with flexDirection := .row },
    .updateStyle ⟨2, 1⟩ fun s => { s with
      flexBasis := .points 0, flexGrow := .known 1, maxSize := ⟨first, .undefined⟩ },
    .updateStyle ⟨3, 1⟩ fun s => { s with
      flexBasis := .points 0, flexGrow := .known 1, maxSize := ⟨second, .undefined⟩ }]

def boundedPass (first second : Length ℚ) : Pass ℚ :=
  ((Pass.start (boundedPair first second) .initial).basisOfChildren (fun _ _ p => p)
    (rowContainer 100)).2

def boundedState (first second : Length ℚ) (children : List NodeId) : FlexState ℚ :=
  (boundedPass first second).soleState (rowContainer 100) (.known 100) children

def boundedEnd (first second : Length ℚ) (children : List NodeId) : Frozen ℚ :=
  let s := boundedState first second children
  freeze s.items.length s.items s.space 0

/-- With one bound alone the row is steady, and the two get the same in both orders. -/
theorem flexing_ignores_order_bounded :
    let f := boundedEnd (.points 10) .undefined [⟨2, 1⟩, ⟨3, 1⟩]
    let f' := boundedEnd (.points 10) .undefined [⟨3, 1⟩, ⟨2, 1⟩]
    f.items.map (fun i => (i.id, i.finalSize f.space)) = [(⟨2, 1⟩, 10), (⟨3, 1⟩, 90)] ∧
    f'.rounds = f.rounds ∧ (f.items.map fun i => (i.id, i.finalSize f.space)).Perm
      (f'.items.map fun i => (i.id, i.finalSize f'.space)) := by
  have hwrap : ((boundedPass (.points 10) .undefined).node (rowContainer 100).id).style.flexWrap =
    .noWrap := by decide +kernel
  have hstart : boundedState (.points 10) .undefined [⟨2, 1⟩, ⟨3, 1⟩] = _ := rfl
  have hstart' : boundedState (.points 10) .undefined [⟨3, 1⟩, ⟨2, 1⟩] = _ := rfl
  have hend : boundedEnd (.points 10) .undefined [⟨2, 1⟩, ⟨3, 1⟩] = _ := rfl
  have hend' : boundedEnd (.points 10) .undefined [⟨3, 1⟩, ⟨2, 1⟩] = _ := rfl
  have hsteady : ∀ k < (boundedEnd (.points 10) .undefined [⟨2, 1⟩, ⟨3, 1⟩]).rounds,
      ((boundedState (.points 10) .undefined [⟨2, 1⟩, ⟨3, 1⟩]).after k).Steady := by
    decide +kernel
  exact ⟨by decide +kernel, (flexing_ignores_order hwrap (by decide) (.swap _ _ _) (.known 100)
    hstart hstart' hend hend').2 hsteady⟩

/-- With a bound of 10 and one of 95, the order matters. If the item with the lower bound comes
first, the other seems to get the whole row and is frozen too, so that the two are wider than the
row; if it comes last, the other gets what is left. -/
theorem order_matters_bounded :
    (((boundedPair (.points 10) (.points 95)).after
      [.calculateLayout ⟨1, 1⟩ ⟨.known 100, .known 100, .ltr⟩]).find? ⟨3, 1⟩).map
        (·.geometry.size.width) = some (.known 95) ∧
    (((boundedPair (.points 10) (.points 95)).after [.setChildren ⟨1, 1⟩ [⟨3, 1⟩, ⟨2, 1⟩],
      .calculateLayout ⟨1, 1⟩ ⟨.known 100, .known 100, .ltr⟩]).find? ⟨3, 1⟩).map
        (·.geometry.size.width) = some (.known 90) := by
  decide +kernel

end Pass

end Flexbox
