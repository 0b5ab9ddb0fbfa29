import Flexbox.Layout
import Mathlib.Logic.Relation

namespace Flexbox

variable {α : Type} [Scalar α]

namespace Container

variable (c : Container α)

/-- What items take of the main axis together, with their margins. -/
def taken (f : NodeId → Node α) (items : List NodeId) : α :=
  items.foldl (fun sum x => sum + ((f x).clampedBasis c.mainAxis c.ownerMain +
    (f x).marginFor c.mainAxis c.innerWidth)) 0

/-- An item does not fit into the space behind those that are there. -/
def Exceeds (f : NodeId → Node α) (space : Extent α) (items : List NodeId) (x : NodeId) : Prop :=
  (Extent.of (c.taken f items + (f x).clampedBasis c.mainAxis c.ownerMain +
    (f x).marginFor c.mainAxis c.innerWidth)).gt space = true

end Container

namespace Line

variable {f : NodeId → Node α} {xs : List NodeId} {line : Line α}

/-- A line is made of `xs`, whatever its space and size. It takes a child in flow if there is one,
and only another one ends it. -/
structure Cut (f : NodeId → Node α) (xs : List NodeId) (line : Line α) : Prop where
  progress : xs ≠ [] → 0 < line.length
  items : line.items = (xs.take line.length).filter fun x => (f x).isInFlow
  next : ∀ x rest, xs.drop line.length = x :: rest → (f x).isInFlow = true ∧ line.items ≠ []

/-- A line goes on as long as its items fit, and only one that does not fit ends it. -/
theorem fill_from (c : Container α) (wraps : Bool) (innerMain : Extent α) (f : NodeId → Node α)
    (xs : List NodeId) (start : Line α) (hstart : start.consumed = c.taken f start.items) :
    let line := fill c wraps c.ownerMain innerMain (xs.map fun x => (x, f x)) start
    ∃ k, (xs ≠ [] → start.items = [] → 0 < k) ∧ line.length = start.length + k ∧
      line.items = start.items ++ ((xs.take k).filter fun x => (f x).isInFlow) ∧
      (∀ x rest, xs.drop k = x :: rest → ((f x).isInFlow = true ∧ line.items ≠ []) ∧
        wraps = true ∧ c.Exceeds f innerMain line.items x) ∧
      ∀ front x back, line.items = front ++ x :: back → start.items.length ≤ front.length →
        front ≠ [] → wraps = true → ¬ c.Exceeds f innerMain front x := by
  dsimp only
  have hover : ∀ {front back : List NodeId} {x : NodeId}, start.items = front ++ x :: back →
      ¬ start.items.length ≤ front.length := by
    intro front back x he
    simp [he]
  induction xs generalizing start with
  | nil => exact ⟨0, by simp, rfl, by simp [fill], nofun, fun _ _ _ he hle => absurd hle (hover he)⟩
  | cons x xs ih =>
    rw [List.map_cons, fill]
    cases hx : (f x).isInFlow with
    | false =>
      obtain ⟨k, -, hlength, hitems, hnext, hfit⟩ := ih start.skip hstart hover
      refine ⟨k + 1, fun _ _ => k.succ_pos, hlength.trans ?_, ?_, hnext, hfit⟩
      · exact Nat.add_assoc _ _ _ |>.trans (by rw [Nat.add_comm 1])
      · exact hitems.trans (by simp [Line.skip, hx])
    | true =>
      rw [Bool.not_true, if_neg (by simp)]
      dsimp only
      rw [hstart]
      split
      · rename_i hend
        simp only [Bool.and_eq_true] at hend
        have hsome : start.items ≠ [] := by
          intro hnone
          simp [hnone] at hend
        refine ⟨0, fun _ hnone => absurd hnone hsome, rfl, by simp, fun y rest hy => ?_,
          fun _ _ _ he hle => absurd hle (hover he)⟩
        obtain ⟨rfl, -⟩ := List.cons.inj hy
        exact ⟨⟨hx, hsome⟩, hend.1.1, hend.2⟩
      · rename_i hgo
        obtain ⟨k, -, hlength, hitems, hnext, hfit⟩ := ih (start.add x (f x)
          ((f x).clampedBasis c.mainAxis c.ownerMain) ((f x).marginFor c.mainAxis c.innerWidth))
          (by simp [Line.add, Container.taken, hstart]) (fun he => by simp [he])
        refine ⟨k + 1, fun _ _ => k.succ_pos, hlength.trans ?_, ?_, hnext,
          fun front y back he hle hne hwraps hexceeds => ?_⟩
        · exact Nat.add_assoc _ _ _ |>.trans (by rw [Nat.add_comm 1])
        · exact hitems.trans (by simp [Line.add, hx])
        rcases Nat.lt_or_eq_of_le hle with hlt | heq
        · exact hfit front y back he (by simpa [Line.add, Nat.succ_le_iff] using hlt) hne hwraps hexceeds
        · -- The first item that is added stands right behind those that were there.
          rw [hitems, Line.add, List.append_assoc] at he
          obtain ⟨rfl, hbehind⟩ := List.append_inj he heq
          obtain ⟨rfl, -⟩ := List.cons.inj hbehind
          refine hgo ?_
          simp only [Bool.and_eq_true]
          exact ⟨⟨hwraps, by simpa using hne⟩, hexceeds⟩

theorem fill_cut (c : Container α) (wraps : Bool) (innerMain : Extent α) (f : NodeId → Node α)
    (xs : List NodeId) :
    Cut f xs (fill c wraps c.ownerMain innerMain (xs.map fun x => (x, f x)) .empty) := by
  obtain ⟨k, hprogress, hlength, hitems, hnext, -⟩ := fill_from c wraps innerMain f xs .empty rfl
  obtain rfl : Line.length _ = k := hlength.trans (Nat.zero_add k)
  exact ⟨fun hne => hprogress hne rfl, hitems, fun x rest hx => (hnext x rest hx).1⟩

section

omit [Scalar α]

variable (h : Cut f xs line)

include h

theorem Cut.taken : ∀ x ∈ xs.take line.length, (f x).isInFlow = true → x ∈ line.items :=
  fun x hx hf => by
    rw [h.items]
    exact List.mem_filter.mpr ⟨hx, hf⟩

theorem Cut.inFlow : ∀ x ∈ line.items, x ∈ xs ∧ (f x).isInFlow = true := fun x hx => by
  rw [h.items] at hx
  exact ⟨List.mem_of_mem_take (List.mem_filter.mp hx).1, (List.mem_filter.mp hx).2⟩

theorem Cut.congr {g : NodeId → Node α} {line' : Line α}
    (hg : ∀ x ∈ xs, (g x).isInFlow = (f x).isInFlow) (hitems : line'.items = line.items)
    (hlength : line'.length = line.length) : Cut g xs line' := by
  obtain ⟨hprogress, hcut, hnext⟩ := h
  rw [← hlength] at hprogress hcut hnext
  rw [← hitems] at hcut hnext
  refine ⟨hprogress, hcut.trans (List.filter_congr fun x hx => ?_), fun x rest hx => ?_⟩
  · rw [hg x (List.mem_of_mem_take hx)]
  · rw [hg x (List.mem_of_mem_drop (hx ▸ List.mem_cons_self))]
    exact hnext x rest hx

variable {keep : NodeId → Bool} (hkeep : ∀ x ∈ xs, (f x).isInFlow = true → keep x = true)

include hkeep

theorem Cut.exhausted (hnone : (xs.drop line.length).filter keep = []) :
    xs.drop line.length = [] := by
  cases hrest : xs.drop line.length with
  | nil => rfl
  | cons x rest =>
    have hx : x ∈ xs.drop line.length := by simp [hrest]
    have hkept := hkeep x (List.mem_of_mem_drop hx) (h.next x rest hrest).1
    exact absurd hkept (List.filter_eq_nil_iff.mp hnone x hx)

theorem Cut.some_left (hne : xs.filter keep ≠ []) :
    0 < ((xs.take line.length).filter keep).length := by
  rw [List.length_pos_iff]
  intro hnone
  have hitems : line.items = [] := by
    rw [h.items, List.filter_eq_nil_iff]
    exact fun x hx hf => List.filter_eq_nil_iff.mp hnone x hx
      (hkeep x (List.mem_of_mem_take hx) hf)
  have hrest : xs.drop line.length = [] := by
    cases hrest : xs.drop line.length with
    | nil => rfl
    | cons x rest => exact absurd hitems (h.next x rest hrest).2
  rw [← List.take_append_drop line.length xs, hrest, List.append_nil] at hne
  exact hne hnone

end

end Line

theorem Pass.collectLine_cut {α : Type} [Scalar α] (c : Container α) (innerMain : Extent α)
    (xs : List NodeId) (number : Nat) (p : Pass α) :
    Line.Cut p.node xs (p.collectLine c innerMain xs number).1 :=
  (Line.fill_cut c _ innerMain p.node xs).congr (fun _ _ => rfl) rfl rfl

/-- A line when it is started: the children that are left, and what was laid out before. -/
structure LineStart (α : Type) where
  left : List NodeId
  state : LinesState α

namespace LineStart

def line (c : Container α) (l : LineStart α) : Line α :=
  (l.state.pass.collectLine c l.state.innerMain l.left l.state.count).1

def range (c : Container α) (l : LineStart α) : List NodeId := l.left.take (l.line c).length

/-- A child of the line as it is when the line is collected. -/
def isItem (l : LineStart α) (x : NodeId) : Bool := (l.state.pass.node x).isInFlow

end LineStart

namespace Pass

variable {c : Container α} {plan : LinesPlan α} {visit : Visitor α}

def lineStarts (visit : Visitor α) (c : Container α) (plan : LinesPlan α) :
    Nat → List NodeId → LinesState α → List (LineStart α)
  | 0, _, _ => []
  | _, [], _ => []
  | fuel + 1, children, s =>
    ⟨children, s⟩ :: lineStarts visit c plan fuel
      (children.drop (layLine visit c plan children s).1) (layLine visit c plan children s).2

theorem lineStarts_suffix (fuel : Nat) (xs : List NodeId) (s : LinesState α) :
    ∀ l ∈ lineStarts visit c plan fuel xs s, l.left <:+ xs := by
  induction fuel generalizing xs s with
  | zero => exact fun l hl => by cases hl
  | succ fuel ih =>
    cases xs with
    | nil => exact fun l hl => by cases hl
    | cons x xs =>
      intro l hl
      rcases List.mem_cons.mp hl with rfl | hl
      · exact List.suffix_refl _
      · exact (ih _ _ l hl).trans (List.drop_suffix _ _)

end Pass

end Flexbox
