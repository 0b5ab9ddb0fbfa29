import Flexbox.Proofs.Freezing.Conserving

namespace Flexbox

open Scalar

variable {α : Type} [Scalar α]

namespace Spacing

/-- What the space of a line is divided by where it goes between its items. -/
def divisors (justify : Justify) (items : Nat) : List α :=
  match justify with
  | .flexStart | .center | .flexEnd => []
  | .spaceBetween => if 1 < items then [ofNat items - 1] else []
  | .spaceEvenly => [ofNat items + 1]
  | .spaceAround => [ofNat items]

/-- The space of a line, spread by some other way to divide. -/
def ofJustifyBy (div : α → α → α) (justify : Justify) (free : α) (items : Nat) : Spacing α :=
  match justify with
  | .flexStart => ⟨0, 0⟩
  | .center => ⟨Scalar.half free, 0⟩
  | .flexEnd => ⟨free, 0⟩
  | .spaceBetween => ⟨0, if 1 < items then div (Scalar.max free 0) (ofNat items - 1) else 0⟩
  | .spaceEvenly => ⟨div free (ofNat items + 1), div free (ofNat items + 1)⟩
  | .spaceAround => ⟨Scalar.half (div free (ofNat items)), div free (ofNat items)⟩

theorem ofJustifyBy_eq {div : α → α → α} {justify : Justify} {items : Nat} (free : α)
    (h : ∀ a, ∀ d ∈ divisors justify items, div a d = a / d) :
    ofJustifyBy div justify free items = ofJustify justify free items := by
  cases justify <;> simp only [ofJustifyBy, ofJustify]
  case spaceBetween =>
    split
    · rename_i hitems
      rw [h _ _ (by simp [divisors, hitems])]
    · rfl
  all_goals rw [h _ _ (by simp [divisors])]

theorem divisors_pos_iff [Lawful α] (justify : Justify) {items : Nat} (hitems : items ≤ 2 ^ 32) :
    (∀ d ∈ divisors (α := α) justify items, (d == 0) = false) ↔
      ¬ (justify = .spaceAround ∧ items = 0) := by
  cases justify <;> simp only [divisors, List.forall_mem_singleton, List.not_mem_nil,
    IsEmpty.forall_iff, implies_true, reduceCtorEq, false_and, not_false_eq_true, true_and,
    iff_true]
  case spaceBetween =>
    split
    · rename_i hmany
      rw [List.forall_mem_singleton]
      exact not_beq_of_gt (Lawful.count_pred_pos hmany hitems).1
    · simp
  case spaceEvenly => exact not_beq_of_gt (Lawful.count_succ_pos hitems)
  case spaceAround =>
    rcases items.eq_zero_or_pos with rfl | hpos
    · simp [Lawful.count_zero]
    · simpa [Nat.ne_of_gt hpos] using not_beq_of_gt (Lawful.count_pos (α := α) hpos hitems).1

end Spacing

namespace LineSpacing

/-- What the space that lines leave is divided by. -/
def divisors (align : Align) (available total : α) (count : Nat) : List α :=
  if total < available then
    match align with
    | .stretch => [ofNat count]
    | .spaceAround => (ofNat 2 * ofNat count) :: if 1 < count then [ofNat count] else []
    | .spaceBetween => if 1 < count then [ofNat count - 1] else []
    | .flexEnd | .center | .auto | .flexStart | .baseline => []
  else []

/-- The space that lines leave, spread by some other way to divide. -/
def ofAlignBy (div : α → α → α) (align : Align) (available total : α) (count : Nat) :
    LineSpacing α :=
  let remaining := available - total
  let lines : α := ofNat count
  match align with
  | .flexEnd => ⟨remaining, 0⟩
  | .center => ⟨Scalar.half remaining, 0⟩
  | .stretch => ⟨0, if total < available then div remaining lines else 0⟩
  | .spaceAround =>
    if total < available then
      ⟨div remaining (ofNat 2 * lines), if 1 < count then div remaining lines else 0⟩
    else ⟨Scalar.half remaining, 0⟩
  | .spaceBetween => ⟨0, if total < available && 1 < count then div remaining (lines - 1) else 0⟩
  | .auto | .flexStart | .baseline => ⟨0, 0⟩

theorem ofAlignBy_eq {div : α → α → α} {align : Align} {available total : α} {count : Nat}
    (h : ∀ a, ∀ d ∈ divisors align available total count, div a d = a / d) :
    ofAlignBy div align available total count = ofAlign align available total count := by
  by_cases hspare : total < available
  · by_cases hmany : 1 < count <;> cases align <;>
      simp_all [ofAlignBy, ofAlign, divisors, Nat.not_lt.mpr]
  · cases align <;> simp [ofAlignBy, ofAlign, hspare]

theorem divisors_pos [Lawful α] (align : Align) (available total : α) {count : Nat}
    (hpos : 0 < count) (hcount : count ≤ 2 ^ 32) :
    ∀ d ∈ divisors align available total count, (d == 0) = false := by
  have hlines := not_beq_of_gt (Lawful.count_pos (α := α) hpos hcount).1
  have htwice := not_beq_of_gt (Lawful.count_twice_pos (α := α) hpos hcount)
  have hpred (hmany : 1 < count) := not_beq_of_gt (Lawful.count_pred_pos (α := α) hmany hcount).1
  by_cases hspare : total < available
  · by_cases hmany : 1 < count <;> cases align <;> simp_all [divisors]
  · simp [divisors, hspare]

end LineSpacing

omit [Scalar α] in
theorem Container.autoMargins_le (c : Container α) (ns : List (Node α)) :
    c.autoMargins ns ≤ 2 * ns.length := by
  have hfold (ms : List (Node α)) (k : Nat) : ms.foldl (fun count n =>
      count + (if (n.leadingMarginValue c.mainAxis).isAuto then 1 else 0) +
        (if (n.trailingMarginValue c.mainAxis).isAuto then 1 else 0)) k ≤ k + 2 * ms.length := by
    induction ms generalizing k with
    | nil => exact Nat.le_refl _
    | cons n ms ih =>
      refine Nat.le_trans (ih _) ?_
      rw [List.length_cons]
      dsimp only
      split <;> split <;> omega
  have hfilter := List.length_filter_le (fun n : Node α => n.style.positionType == .relative) ns
  have hall := hfold (ns.filter fun n => n.style.positionType == .relative) 0
  unfold autoMargins
  omega

namespace Pass

/-- Places a line along the main axis by some other way to divide. -/
def justifyLineBy (div : α → α → α) (c : Container α) (mainMode : MeasureMode)
    (innerMain : Extent α) (children : List NodeId) (line : Line α) (p : Pass α) :
    Line α × Pass α :=
  let n := p.node c.id
  let free := c.spaceToSpread n mainMode innerMain line.space.free
  let autoMargins := c.autoMargins (children.map p.node)
  let spacing : Spacing α :=
    if autoMargins == 0 then .ofJustifyBy div n.style.justifyContent free line.items.length
    else ⟨0, 0⟩
  let plan : JustifyPlan α :=
    { innerMain := innerMain
      spacing := spacing
      marginShare := if 0 < autoMargins then div free (ofNat autoMargins) else 0
      leadingBorder := n.leadingBorder c.mainAxis
      onBaseline := p.hasBaselineChildren c.id
      skipsFlex := !c.performLayout && c.crossMode == .exactly }
  let s := children.foldl (placeChildMain c plan)
    ⟨n.leadingFrame c.mainAxis c.ownerWidth + spacing.leading, 0, 0, 0, p⟩
  ({ line with
      space := { line.space with free := free }
      mainSize := s.mainSize + n.trailingFrame c.mainAxis c.ownerWidth
      crossSize := if plan.onBaseline then s.ascent + s.descent else s.crossSize }, s.pass)

theorem justifyLineBy_eq {div : α → α → α} {c : Container α} (mainMode : MeasureMode)
    (innerMain : Extent α) {children : List NodeId} {line : Line α} {p : Pass α}
    (h : ∀ a, ∀ d ∈ (if c.autoMargins (children.map p.node) = 0 then
        Spacing.divisors (p.node c.id).style.justifyContent line.items.length
      else [ofNat (c.autoMargins (children.map p.node))]), div a d = a / d) :
    p.justifyLineBy div c mainMode innerMain children line =
      p.justifyLine c mainMode innerMain children line := by
  unfold justifyLineBy justifyLine
  by_cases hnone : c.autoMargins (children.map p.node) = 0
  · rw [if_pos hnone] at h
    simp only [hnone, Spacing.ofJustifyBy_eq _ h, Nat.lt_irrefl, if_false]
  · rw [if_neg hnone] at h
    simp only [h _ _ (List.mem_singleton_self _), beq_eq_false_iff_ne.mpr hnone,
      Bool.false_eq_true, if_false]

end Pass

namespace LineStart

variable {visit : Visitor α} {c : Container α} {plan : LinesPlan α} {l : LineStart α}

/-- Automatic margins in the line when its items have got their sizes. -/
def autoMargins (visit : Visitor α) (c : Container α) (plan : LinesPlan α) (l : LineStart α) :
    Nat :=
  c.autoMargins ((l.range c).map (Pass.flexFront visit c plan l.left l.state).2.node)

/-- How the container spreads the space of the line at that time. -/
def justify (visit : Visitor α) (c : Container α) (plan : LinesPlan α) (l : LineStart α) :
    Justify :=
  ((Pass.flexFront visit c plan l.left l.state).2.node c.id).style.justifyContent

/-- What the space of the line is divided by, among its automatic margins if it has any and
between its items if not. -/
def divisors (visit : Visitor α) (c : Container α) (plan : LinesPlan α) (l : LineStart α) :
    List α :=
  if l.autoMargins visit c plan = 0 then
    Spacing.divisors (l.justify visit c plan)
      (Pass.flexFront visit c plan l.left l.state).1.1.items.length
  else [ofNat (l.autoMargins visit c plan)]

/-- The line with its items at their sizes, handed on to be placed along the main axis. -/
def placed (place : Container α → MeasureMode → Extent α → List NodeId → Line α → Pass α →
    Line α × Pass α) (visit : Visitor α) (c : Container α) (plan : LinesPlan α)
    (l : LineStart α) : Line α × Pass α :=
  let flexed := Pass.flexFront visit c plan l.left l.state
  place c plan.mainMode flexed.1.2 (l.left.take flexed.1.1.length) flexed.1.1 flexed.2

theorem flexed_length : (Pass.flexFront visit c plan l.left l.state).1.1.length =
    (l.line c).length := by
  rw [Pass.flexFront_eq, (Pass.flexCollected_line visit c plan _ _ _).2]
  rfl

theorem placed_by_eq {div : α → α → α} (h : ∀ a, ∀ d ∈ l.divisors visit c plan, div a d = a / d) :
    l.placed (Pass.justifyLineBy div) visit c plan = l.placed Pass.justifyLine visit c plan := by
  unfold placed
  dsimp only
  rw [flexed_length]
  refine Pass.justifyLineBy_eq _ _ ?_
  exact h

theorem flexed_items : (Pass.flexFront visit c plan l.left l.state).1.1.items =
    (l.range c).filter l.isItem := by
  rw [Pass.flexFront_eq, (Pass.flexCollected_line visit c plan _ _ _).1]
  exact (l.state.pass.collectLine_cut c l.state.innerMain l.left l.state.count).items

theorem divisors_pos_iff [Lawful α] (hl : 2 * l.left.length ≤ 2 ^ 32) :
    (∀ d ∈ l.divisors visit c plan, (d == 0) = false) ↔
      ¬ (l.justify visit c plan = .spaceAround ∧ l.autoMargins visit c plan = 0 ∧
        ∀ x ∈ l.range c, l.isItem x = false) := by
  have hrange : (l.range c).length ≤ l.left.length := List.length_take_le' _ _
  have hmargins := c.autoMargins_le
    ((l.range c).map (Pass.flexFront visit c plan l.left l.state).2.node)
  rw [List.length_map] at hmargins
  have hitems := List.length_filter_le l.isItem (l.range c)
  unfold divisors
  split
  · rename_i hnone
    rw [flexed_items, Spacing.divisors_pos_iff _ (by omega), List.length_eq_zero_iff,
      List.filter_eq_nil_iff]
    simp [hnone]
  · rename_i hsome
    rw [List.forall_mem_singleton]
    exact iff_of_true (not_beq_of_gt (Lawful.count_pos (Nat.pos_of_ne_zero hsome)
      (by unfold autoMargins; omega)).1) fun h => hsome h.2.1

end LineStart

namespace Pass

variable (visit : Visitor α) (c : Container α) (plan : LinesPlan α)

theorem layLines_count (fuel : Nat) (xs : List NodeId) (s : LinesState α) :
    (layLines visit c plan fuel xs s).count =
      s.count + (lineStarts visit c plan fuel xs s).length := by
  induction fuel generalizing xs s with
  | zero => rfl
  | succ fuel ih =>
    cases xs with
    | nil => rfl
    | cons x xs =>
      have hcount : (layLine visit c plan (x :: xs) s).2.count = s.count + 1 := by
        rw [layLine_eq]
        rfl
      rw [layLines_cons, ih, hcount]
      simp only [lineStarts, List.length_cons]
      omega

theorem lineStarts_length_le (fuel : Nat) (xs : List NodeId) (s : LinesState α) :
    (lineStarts visit c plan fuel xs s).length ≤ fuel := by
  induction fuel generalizing xs s with
  | zero => exact Nat.le_refl _
  | succ fuel ih =>
    cases xs with
    | nil => exact Nat.zero_le _
    | cons x xs => exact Nat.succ_le_succ (ih _ _)

def linesOf (visit : Visitor α) (c : Container α) (plan : LinesPlan α) (p : Pass α) :
    List (LineStart α) :=
  lineStarts visit c plan (p.children c.id).length (p.children c.id) ⟨c.innerMain, 0, 0, 0, p⟩

/-- Placing divides by zero exactly where space goes around the items of a line that has none. It
is otherwise divided by numbers of items, of margins or of lines, and there always is a line. By
nothing else is divided: another way to divide that agrees on these places all the same. -/
theorem placing_divides_by_zero_iff [Lawful α] (visit : Visitor α) (c : Container α)
    (plan : LinesPlan α) (p : Pass α) (hne : p.children c.id ≠ [])
    (hlen : 2 * (p.children c.id).length ≤ 2 ^ 32) :
    (∀ l ∈ linesOf visit c plan p,
      ((∀ d ∈ l.divisors visit c plan, (d == 0) = false) ↔
        ¬ (l.justify visit c plan = .spaceAround ∧ l.autoMargins visit c plan = 0 ∧
          ∀ x ∈ l.range c, l.isItem x = false)) ∧
      ∀ div : α → α → α, (∀ a, ∀ d ∈ l.divisors visit c plan, div a d = a / d) →
        l.placed (justifyLineBy div) visit c plan = l.placed justifyLine visit c plan) ∧
    ∀ (align : Align) (available total : α) (count : Nat), count = (layLines visit c plan
        (p.children c.id).length (p.children c.id) ⟨c.innerMain, 0, 0, 0, p⟩).count →
      (∀ d ∈ LineSpacing.divisors align available total count, (d == 0) = false) ∧
      ∀ div : α → α → α,
        (∀ a, ∀ d ∈ LineSpacing.divisors align available total count, div a d = a / d) →
        LineSpacing.ofAlignBy div align available total count =
          LineSpacing.ofAlign align available total count := by
  have hlines := lineStarts_length_le visit c plan (p.children c.id).length (p.children c.id)
    ⟨c.innerMain, 0, 0, 0, p⟩
  have hcount := layLines_count visit c plan (p.children c.id).length (p.children c.id)
    ⟨c.innerMain, 0, 0, 0, p⟩
  dsimp only at hcount
  refine ⟨fun l hl => ⟨LineStart.divisors_pos_iff ?_, fun _ => LineStart.placed_by_eq⟩,
    fun align available total count hcounted => ⟨?_, fun _ => LineSpacing.ofAlignBy_eq⟩⟩
  · exact Nat.le_trans (Nat.mul_le_mul_left 2 (lineStarts_suffix _ _ _ l hl).length_le) hlen
  · refine LineSpacing.divisors_pos align available total ?_ (by omega)
    obtain ⟨x, xs, hxs⟩ := List.exists_cons_of_ne_nil hne
    rw [hcounted, hcount, hxs]
    exact Nat.add_pos_right _ (Nat.succ_pos _)

/-- A row that puts space around its items, with one child that is out of flow. -/
def vacantRow : Pass ℚ :=
  .start ((Tree.empty .initial).after [.newNode none, .newNode none, .addChild ⟨1, 1⟩ ⟨2, 1⟩,
    .updateStyle ⟨1, 1⟩ fun s => { s with justifyContent := .spaceAround },
    .updateStyle ⟨2, 1⟩ fun s => { s with positionType := .absolute }]) .initial

def vacantPlan : LinesPlan ℚ := (rowContainer 100).linesPlan (vacantRow.node ⟨1, 1⟩) 0

theorem placing_divides_by_zero_vacant :
    (∃ l ∈ linesOf (fun _ _ p => p) (rowContainer 100) vacantPlan vacantRow,
      ¬ ∀ d ∈ l.divisors (fun _ _ p => p) (rowContainer 100) vacantPlan, (d == 0) = false) ∧
    ∀ align available total, ∀ d ∈ LineSpacing.divisors (α := ℚ) align available total 1,
      (d == 0) = false := by
  have hchild : vacantRow.children (rowContainer 100).id = [⟨2, 1⟩] := by decide +kernel
  obtain ⟨hline, hlines⟩ := placing_divides_by_zero_iff (fun _ _ p => p) (rowContainer 100)
    vacantPlan vacantRow (by rw [hchild]; decide) (by rw [hchild]; decide)
  have hone : (layLines (fun _ _ p => p) (rowContainer 100) vacantPlan
      (vacantRow.children (rowContainer 100).id).length (vacantRow.children (rowContainer 100).id)
      ⟨(rowContainer 100).innerMain, 0, 0, 0, vacantRow⟩).count = 1 := by decide +kernel
  have hfirst : ⟨[⟨2, 1⟩], ⟨.known 100, 0, 0, 0, vacantRow⟩⟩ ∈
      linesOf (fun _ _ p => p) (rowContainer 100) vacantPlan vacantRow := by
    rw [linesOf, hchild]
    exact List.mem_cons_self
  refine ⟨⟨_, hfirst, fun hall => (hline _ hfirst).1.mp hall ?_⟩,
    fun align available total => (hlines align available total 1 hone.symm).1⟩
  decide +kernel

/-- The line has a divisor, and it is the number of its items. -/
theorem vacant_line_divides_by_zero :
    ⟨[⟨2, 1⟩], ⟨.known 100, 0, 0, 0, vacantRow⟩⟩ ∈
      linesOf (fun _ _ p => p) (rowContainer 100) vacantPlan vacantRow ∧
    (⟨[⟨2, 1⟩], ⟨.known 100, 0, 0, 0, vacantRow⟩⟩ : LineStart ℚ).divisors (fun _ _ p => p)
      (rowContainer 100) vacantPlan = [0] := by
  have hchild : vacantRow.children (rowContainer 100).id = [⟨2, 1⟩] := by decide +kernel
  refine ⟨?_, by decide +kernel⟩
  rw [linesOf, hchild]
  exact List.mem_cons_self

end Pass

end Flexbox
