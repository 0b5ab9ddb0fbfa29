import Flexbox.Proofs.Memory
import Flexbox.Proofs.Unfolding

namespace Flexbox

/-- A part of what the solver writes on a node. -/
inductive Part
  | side (side : Side)
  | size
  /-- The direction with the margins, borders and paddings that it orders. -/
  | edges
  | basis
  | measured
  | line
  /-- The preferred size, brought in line with the style. -/
  | preferred

namespace Node

variable {α : Type} {o n m k : Node α} {g g' : UInt32} {r : Request α}

def Agree [Scalar α] (n m : Node α) : Part → Prop
  | .side s => n.geometry.position.get s = m.geometry.position.get s
  | .size => n.geometry.size = m.geometry.size
  | .edges => n.geometry.direction = m.geometry.direction ∧ n.geometry.margin = m.geometry.margin ∧
      n.geometry.border = m.geometry.border ∧ n.geometry.padding = m.geometry.padding
  | .basis => n.geometry.flexBasis = m.geometry.flexBasis
  | .measured => n.geometry.measured = m.geometry.measured
  | .line => n.line = m.line
  | .preferred => n.resolvedSize = n.resolveSize.resolvedSize ∧
      m.resolvedSize = m.resolveSize.resolvedSize

theorem SameCore.symm (h : SameCore n m) : SameCore m n := by
  unfold SameCore at *
  rw [h]

def SameMemory (n m : Node α) : Prop :=
  m.geometry.measurements = n.geometry.measurements ∧
    m.geometry.lastLayout = n.geometry.lastLayout ∧
    m.geometry.lastOwnerDirection = n.geometry.lastOwnerDirection

theorem SameMemory.refl (n : Node α) : SameMemory n n := ⟨rfl, rfl, rfl⟩

theorem SameMemory.trans (h : SameMemory n m) (h' : SameMemory m k) : SameMemory n k :=
  ⟨h'.1.trans h.1, h'.2.1.trans h.2.1, h'.2.2.trans h.2.2⟩

variable [Scalar α] {direction : Direction}

def IsBlank (n : Node α) : Prop :=
  n.geometry.measurements = [] ∧ n.geometry.lastLayout = .blank

def IsUnasked (n : Node α) : Prop := n.geometry.lastOwnerDirection = none ∧ n.IsBlank

/-- The answers that `n` remembers are those that `m` does, behind what is left of those of `o`. -/
structure Recalls (o n m : Node α) : Prop where
  measurements : n.geometry.measurements = m.geometry.measurements ∨
    (n.geometry.measurements = o.geometry.measurements ++ m.geometry.measurements ∧
      n.geometry.lastOwnerDirection = o.geometry.lastOwnerDirection ∧
      (m.geometry.measurements = [] ∨ n.geometry.measurements.length < measurementCapacity))
  lastLayout : n.geometry.lastLayout = m.geometry.lastLayout ∨
    (m.geometry.lastLayout = .blank ∧ n.geometry.lastLayout = o.geometry.lastLayout ∧
      n.geometry.lastOwnerDirection = o.geometry.lastOwnerDirection)

/-- Asked before in the present passes, whose numbers are `g` and `g'`. -/
structure Asked (g g' : UInt32) (n m : Node α) : Prop where
  left : n.geometry.generation = g
  right : m.geometry.generation = g'
  direction : n.geometry.lastOwnerDirection = m.geometry.lastOwnerDirection
  edges : Agree n m .edges

/-- Bases that hold for the present passes agree, and the right pass has no others. -/
structure Bases (g g' : UInt32) (n m : Node α) : Prop where
  stale : Container.basisIsStale n g = Container.basisIsStale m g'
  agree : Container.basisIsStale n g = false → Agree n m .basis
  right : m.geometry.flexBasis.isUndefined = true ∨ m.geometry.basisGeneration = g'

/-- The same node in two passes; `o` is the node as the left one found it. -/
structure Twin (g g' : UInt32) (o n m : Node α) : Prop where
  left : SameCore o n
  right : SameCore o m
  dirty : n.isDirty = true → o.isDirty = true
  bases : Bases g g' n m
  recalls : Recalls o n m
  asked : m.IsUnasked ∨ Asked g g' n m

theorem Twin.core (h : Twin g g' o n m) : SameCore n m := h.left.symm.trans h.right

theorem recalled?_unmeasured (hm : n.measure = none) (r : Request α) :
    n.recalled? r =
      (if r.performLayout then
          if n.geometry.lastLayout.matchesRequest r.width r.height then some n.geometry.lastLayout
          else none
        else n.geometry.measurements.find? fun e => e.matchesRequest r.width r.height).map
      fun e => ⟨.of e.computedWidth, .of e.computedHeight⟩ := by
  unfold recalled? remembered?
  simp only [hm, Option.isSome_none, Bool.false_eq_true, if_false]
  split
  · split <;> rfl
  · rw [List.find?_eq_bind_findIdx?_getElem?]
    cases n.geometry.measurements.findIdx? fun e => e.matchesRequest r.width r.height <;> rfl

theorem IsBlank.recalled? (h : n.IsBlank) (hm : n.measure = none) (r : Request α) :
    n.recalled? r = none := by
  simp [recalled?_unmeasured hm, h.1, h.2, blank_matchesRequest]

theorem IsBlank.refreshed (h : n.IsBlank) (g : UInt32) (direction : Direction) :
    (n.refreshed g direction).IsBlank := by
  unfold Node.refreshed
  split
  · exact ⟨rfl, rfl⟩
  · exact h

theorem refreshed_core (n : Node α) (g : UInt32) (direction : Direction) :
    SameCore n (n.refreshed g direction) := by
  unfold refreshed
  split <;> rfl

theorem Recalls.recalled? (h : Recalls o n m) (hn : n.measure = none) (hm : m.measure = none)
    (ho : o.measure = none)
    (hold : n.geometry.lastOwnerDirection = o.geometry.lastOwnerDirection →
      o.recalled? r = none) : n.recalled? r = m.recalled? r := by
  rw [recalled?_unmeasured hn, recalled?_unmeasured hm]
  congr 1
  rw [recalled?_unmeasured ho, Option.map_eq_none_iff] at hold
  by_cases hp : r.performLayout = true
  · simp only [hp, if_true] at hold ⊢
    rcases h.lastLayout with he | ⟨hb, he, hd⟩
    · simp only [he]
    · have hno := hold hd
      rw [he, hno, hb, blank_matchesRequest]
      rfl
  · simp only [hp, Bool.false_eq_true, if_false] at hold ⊢
    rcases h.measurements with he | ⟨he, hd, -⟩
    · simp only [he]
    · rw [he, List.find?_append, hold hd, Option.none_or]

omit [Scalar α] in
theorem direction_of_not_outdated (h : ¬ n.isOutdated g direction = true) :
    n.geometry.lastOwnerDirection = some direction := by
  simpa using (Bool.or_eq_false_iff.mp (Bool.eq_false_iff.mpr h)).2

theorem Asked.isOutdated (h : Asked g g' n m) (direction : Direction) :
    n.isOutdated g direction = m.isOutdated g' direction := by
  simp [Node.isOutdated, h.left, h.right, h.direction]

theorem refreshed_of_outdated (h : n.isOutdated g direction = true) :
    n.refreshed g direction = { n with geometry := n.geometry.forget } := if_pos h

theorem refreshed_of_not_outdated (h : ¬ n.isOutdated g direction = true) :
    n.refreshed g direction = n := if_neg h

theorem forget_blank (n : Node α) : IsBlank { n with geometry := n.geometry.forget } := ⟨rfl, rfl⟩

theorem Recalls.of_blank (hn : n.IsBlank) (hm : m.IsBlank) : Recalls o n m :=
  ⟨Or.inl (hn.1.trans hm.1.symm), Or.inl (hn.2.trans hm.2.symm)⟩

theorem Recalls.congr (h : Recalls o n m) {n' m' : Node α} (hn : SameMemory n n')
    (hm : m'.geometry.measurements = m.geometry.measurements ∧
      m'.geometry.lastLayout = m.geometry.lastLayout) : Recalls o n' m' := by
  constructor
  · rw [hn.1, hn.2.2, hm.1]
    exact h.measurements
  · rw [hn.2.1, hn.2.2, hm.2]
    exact h.lastLayout

theorem IsUnasked.refreshed (h : m.IsUnasked) (g : UInt32) (direction : Direction) :
    (m.refreshed g direction).IsUnasked := by
  refine ⟨?_, h.2.refreshed g direction⟩
  unfold Node.refreshed
  split <;> exact h.1

theorem Twin.refreshed_blank (h : Twin g g' o n m) (hout : n.isOutdated g direction = true) :
    (m.refreshed g' direction).IsBlank := by
  rcases h.asked with hu | ha
  · exact hu.2.refreshed g' direction
  · rw [refreshed_of_outdated (ha.isOutdated direction ▸ hout)]
    exact forget_blank m

theorem Twin.refreshed (h : Twin g g' o n m) (direction : Direction) :
    Twin g g' o (n.refreshed g direction) (m.refreshed g' direction) := by
  refine ⟨h.left.trans (refreshed_core n g direction),
    h.right.trans (refreshed_core m g' direction), ?_, ?_, ?_, ?_⟩
  · unfold Node.refreshed
    split <;> exact h.dirty
  · unfold Node.refreshed
    split <;> split <;> exact ⟨h.bases.stale, h.bases.agree, h.bases.right⟩
  · by_cases hout : n.isOutdated g direction = true
    · rw [refreshed_of_outdated hout]
      exact .of_blank (forget_blank n) (h.refreshed_blank hout)
    rw [refreshed_of_not_outdated hout]
    rcases h.asked with hu | ha
    · have hm := hu.2.refreshed g' direction
      exact h.recalls.congr (SameMemory.refl n) ⟨hm.1.trans hu.2.1.symm, hm.2.trans hu.2.2.symm⟩
    · rw [refreshed_of_not_outdated (ha.isOutdated direction ▸ hout)]
      exact h.recalls
  · rcases h.asked with hu | ha
    · exact Or.inl (hu.refreshed g' direction)
    · refine Or.inr ?_
      unfold Node.refreshed
      split <;> split <;> exact ⟨ha.left, ha.right, ha.direction, ha.edges⟩

theorem Twin.recalled? (h : Twin g g' o n m) (hm : o.measure = none)
    (ho : o.isDirty = true → o.IsBlank) (g₀ : UInt32)
    (hnone : (o.refreshed g₀ r.ownerDirection).recalled? r = none) :
    (n.refreshed g r.ownerDirection).recalled? r =
      (m.refreshed g' r.ownerDirection).recalled? r := by
  have hleft : (n.refreshed g r.ownerDirection).measure = none := by
    rw [refreshed_core n g r.ownerDirection, h.left, hm]
  have hright : (m.refreshed g' r.ownerDirection).measure = none := by
    rw [refreshed_core m g' r.ownerDirection, h.right, hm]
  by_cases hout : n.isOutdated g r.ownerDirection = true
  · rw [(h.refreshed_blank hout).recalled? hright, refreshed_of_outdated hout] at *
    exact (forget_blank n).recalled? hleft r
  refine (h.refreshed r.ownerDirection).recalls.recalled? hleft hright hm fun hd => ?_
  rw [refreshed_of_not_outdated hout, direction_of_not_outdated hout] at hd
  by_cases hdirty : o.isDirty = true
  · exact (ho hdirty).recalled? hm r
  · rwa [refreshed_of_not_outdated] at hnone
    simp [isOutdated, hdirty, ← hd]

theorem Recalls.forgotten (h : Recalls o n m) (hn : n.measure = none) (hm : m.measure = none)
    (hnone : n.recalled? r = none) : m.recalled? r = none := by
  rw [recalled?_unmeasured hn, Option.map_eq_none_iff] at hnone
  rw [recalled?_unmeasured hm, Option.map_eq_none_iff]
  by_cases hp : r.performLayout = true
  · simp only [hp, if_true] at hnone ⊢
    rcases h.lastLayout with he | ⟨hb, -⟩
    · rwa [← he]
    · rw [hb, blank_matchesRequest]
      rfl
  · simp only [hp, Bool.false_eq_true, if_false] at hnone ⊢
    rcases h.measurements with he | ⟨he, -⟩
    · rwa [← he]
    · rw [he, List.find?_append, Option.or_eq_none_iff] at hnone
      exact hnone.2

theorem Twin.forgotten (h : Twin g g' o n m) (hm : o.measure = none)
    (hnone : (n.refreshed g direction).recalled? r = none) :
    (m.refreshed g' direction).recalled? r = none := by
  refine (h.refreshed direction).recalls.forgotten ?_ ?_ hnone
  · rw [refreshed_core n g direction, h.left, hm]
  · rw [refreshed_core m g' direction, h.right, hm]

/-- The node once it was asked with the owner's direction. -/
def directed (n : Node α) (direction : Direction) : Node α :=
  { n with geometry := { n.geometry with lastOwnerDirection := some direction } }

/-- The node once it has remembered the answer to a request. -/
def remembering (n : Node α) (r : Request α) : Node α :=
  { n with geometry := n.geometry.remember r }

theorem Recalls.directed (h : Recalls o n m)
    (hn : n.IsBlank ∨ n.geometry.lastOwnerDirection = some direction) :
    Recalls o (n.directed direction) (m.directed direction) := by
  constructor
  · rcases h.measurements with he | ⟨he, hd, hroom⟩
    · exact Or.inl he
    · rcases hn with hb | hn
      · have hm : m.geometry.measurements = [] := (List.append_eq_nil_iff.mp (he.symm.trans hb.1)).2
        exact Or.inl (hb.1.trans hm.symm)
      · exact Or.inr ⟨he, hn.symm.trans hd, hroom⟩
  · rcases h.lastLayout with he | ⟨hm, he, hd⟩
    · exact Or.inl he
    · rcases hn with hb | hn
      · exact Or.inl (hb.2.trans hm.symm)
      · exact Or.inr ⟨hm, he, hn.symm.trans hd⟩

theorem Recalls.roomForOne (h : Recalls o n m) :
    n.geometry.roomForOne = m.geometry.roomForOne ∨
      (n.geometry.roomForOne = o.geometry.measurements ++ m.geometry.roomForOne ∧
        n.geometry.lastOwnerDirection = o.geometry.lastOwnerDirection ∧
        (m.geometry.roomForOne = [] ∨ n.geometry.roomForOne.length < measurementCapacity)) := by
  unfold Geometry.roomForOne
  rcases h.measurements with he | ⟨he, hd, hroom⟩
  · exact Or.inl (by rw [he])
  by_cases hfull : n.geometry.measurements.length = measurementCapacity
  · -- A full memory holds old answers alone, and starts over.
    have hm : m.geometry.measurements = [] := hroom.resolve_right (by omega)
    exact Or.inl (by simp [hfull, hm])
  · have hlength : m.geometry.measurements.length ≠ measurementCapacity := by
      rcases hroom with hm | hroom
      · simp [hm, measurementCapacity]
      · rw [he, List.length_append] at hroom
        omega
    simp only [beq_eq_false_iff_ne.mpr hfull, beq_eq_false_iff_ne.mpr hlength,
      Bool.false_eq_true, if_false]
    exact Or.inr ⟨he, hd, hroom⟩

theorem Recalls.remembering (h : Recalls o n m) (ha : Agree n m .measured)
    (hroom : n.geometry.roomForOne.length + 1 < measurementCapacity ∨
      o.geometry.measurements = []) (r : Request α) :
    Recalls o (n.remembering r) (m.remembering r) := by
  have ha : n.geometry.measured = m.geometry.measured := ha
  have hkept := h.roomForOne
  unfold Node.remembering Geometry.remember
  by_cases hp : r.performLayout = true
  · simp only [hp, if_true, ha]
    exact ⟨hkept, Or.inl rfl⟩
  · simp only [hp, Bool.false_eq_true, if_false, ha]
    refine ⟨?_, h.lastLayout⟩
    rcases hkept with he | ⟨he, hd, -⟩
    · exact Or.inl (by rw [he])
    · rcases hroom with hroom | hroom
      · exact Or.inr ⟨by rw [he, List.append_assoc], hd, Or.inr (by simpa using hroom)⟩
      · exact Or.inl (by rw [he, hroom, List.nil_append])

theorem refreshed_blank_or_directed (n : Node α) (g : UInt32) (direction : Direction) :
    (n.refreshed g direction).IsBlank ∨
      (n.refreshed g direction).geometry.lastOwnerDirection = some direction := by
  by_cases hout : n.isOutdated g direction = true
  · rw [refreshed_of_outdated hout]
    exact Or.inl (forget_blank n)
  · rw [refreshed_of_not_outdated hout]
    exact Or.inr (direction_of_not_outdated hout)

structure Ordinary (n m : Node α) : Prop where
  core : SameCore n m
  dirty : m.isDirty = n.isDirty
  basis : m.geometry.flexBasis = n.geometry.flexBasis
  basisGeneration : m.geometry.basisGeneration = n.geometry.basisGeneration
  generation : m.geometry.generation = n.geometry.generation
  memory : SameMemory n m

omit [Scalar α] in
theorem Ordinary.stale (h : Ordinary n m) (g : UInt32) :
    Container.basisIsStale m g = Container.basisIsStale n g := by
  have hconfig : m.config = n.config := by rw [h.core]
  simp only [Container.basisIsStale, h.basis, h.basisGeneration, hconfig]

theorem Twin.ordinary (h : Twin g g' o n m) {n₁ m₁ : Node α} (hn : Ordinary n n₁)
    (hm : Ordinary m m₁) (he : Agree n m .edges → Agree n₁ m₁ .edges) : Twin g g' o n₁ m₁ := by
  refine ⟨h.left.trans hn.core, h.right.trans hm.core, ?_, ⟨?_, ?_, ?_⟩,
    h.recalls.congr hn.memory ⟨hm.memory.1, hm.memory.2.1⟩, ?_⟩
  · rw [hn.dirty]
    exact h.dirty
  · rw [hn.stale, hm.stale]
    exact h.bases.stale
  · rw [hn.stale, Agree, hn.basis, hm.basis]
    exact h.bases.agree
  · rw [hm.basis, hm.basisGeneration]
    exact h.bases.right
  · rcases h.asked with hu | ha
    · exact Or.inl ⟨hm.memory.2.2.trans hu.1, hm.memory.1.trans hu.2.1, hm.memory.2.1.trans hu.2.2⟩
    · exact Or.inr ⟨hn.generation.trans ha.left, hm.generation.trans ha.right,
        hn.memory.2.2.trans (ha.direction.trans hm.memory.2.2.symm), he ha.edges⟩

end Node

end Flexbox
