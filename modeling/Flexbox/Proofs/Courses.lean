import Flexbox.Proofs.Movers

namespace Flexbox

/-- `m` remembers what `n` does and is as much out of date, or remembers nothing. -/
def Node.Retains {α : Type} [Scalar α] (n m : Node α) : Prop :=
  (m.isDirty = n.isDirty ∧ m.geometry.generation = n.geometry.generation ∧
    m.geometry.measurements = n.geometry.measurements ∧
    m.geometry.lastLayout = n.geometry.lastLayout) ∨
  (m.geometry.measurements = [] ∧ m.geometry.lastLayout = .blank)

namespace Pass

variable {α : Type} [Scalar α]

/-- A relation that bears what the solver does outside of visits. -/
structure Course (R : Pass α → Pass α → Prop) : Prop where
  refl : ∀ p, R p p
  trans : ∀ {p q r}, R p q → R q r → R p r
  update : ∀ p id {f : Node α → Node α}, (∀ n : Node α, n.Retains (f n)) → R p (p.update id f)
  own : ∀ p id, R p (p.ownChildren id)
  tell : ∀ p {e}, e.Quiet → R p (p.tell e)
  count : ∀ p f, R p (p.count f)

namespace Course

variable {R : Pass α → Pass α → Prop} (hR : Course R) {p q : Pass α} {id : NodeId}

include hR

theorem updateGeometry {f : Geometry α → Geometry α} (hf : ∀ g : Geometry α, g.SameAnswers (f g)) :
    R p (p.updateGeometry id f) :=
  hR.update p id fun n => Or.inl ⟨rfl, hf n.geometry⟩

theorem setMeasured (width height : α) : R p (p.setMeasured id width height) :=
  hR.updateGeometry fun _ => ⟨rfl, rfl, rfl⟩

theorem zeroOut (fuel : Nat) : R p (zeroOut fuel id p) := by
  induction fuel generalizing p id with
  | zero => exact hR.refl p
  | succ fuel ih =>
    have hempty : R p (p.update id Node.emptied) := hR.update p id fun n => Or.inr ⟨rfl, rfl⟩
    rw [zeroOut_succ]
    refine hR.trans (hR.trans hempty (hR.own _ id)) ?_
    generalize (p.update id _).ownChildren id = q
    generalize q.children id = xs
    induction xs generalizing q with
    | nil => exact hR.refl q
    | cons x xs hxs => exact hR.trans ih (hxs _)

theorem place {f : Node α → Geometry α} (hf : ∀ n : Node α, n.geometry.SameBox (f n)) :
    R p (p.redraw id f) := by
  refine hR.update p id fun n => Or.inl ⟨rfl, ?_⟩
  dsimp only
  rw [hf n]
  exact ⟨rfl, rfl, rfl⟩

variable {visit : Visitor α} (hv : ∀ id r p, R p (visit id r p)) {P : Chore α → Prop}

include hv

theorem does {t : Chore α} (h : Does visit id t p q) : R p q := by
  cases h with
  | note _ hf => exact hR.updateGeometry hf
  | overrun | heed => exact hR.updateGeometry fun _ => ⟨rfl, rfl, rfl⟩
  | settle | base | number => exact hR.update p _ fun _ => Or.inl ⟨rfl, rfl, rfl, rfl⟩
  | place _ x hf => exact hR.place hf
  | clear _ _ fuel => exact hR.zeroOut fuel
  | ask _ x r => exact hv x r p
  | tell _ he => exact hR.tell p he
  | count => exact hR.count p _

theorem works (h : Works visit id P p q) : R p q := by
  induction h with
  | refl => exact hR.refl p
  | tail _ hd ih =>
    obtain ⟨t, -, hd⟩ := hd
    exact hR.trans ih (hR.does hv hd)

theorem labors (h : Labors visit id P p q) : R p q := by
  induction h with
  | refl => exact hR.refl p
  | tail _ hw ih => exact hR.trans ih (hR.works hv hw)

omit hv in
theorem measureLeaf (measure : Measure α) (r : Request α) : R p (p.measureLeaf id measure r) := by
  refine Conduct.either (hR.setMeasured _ _) (hR.trans ?_ (hR.setMeasured _ _))
  exact hR.trans (hR.tell p (by rfl)) (hR.count _ _)

theorem layContainer (direction : Direction) (r : Request α) :
    R p (p.layContainer visit id direction r) :=
  hR.trans (hR.own p id) (hR.labors hv (layContainer_labors direction r))

theorem layNode (r : Request α) : R p (p.layNode visit id r) := by
  have hedges : R p (p.edged id r) :=
    hR.trans (hR.count p _) (hR.update _ id fun _ => Or.inl ⟨rfl, rfl, rfl, rfl⟩)
  rw [layNode_eq]
  refine hR.trans hedges ?_
  unfold layInside
  split
  · exact hR.measureLeaf _ r
  · exact Conduct.either (hR.setMeasured _ _)
      (Conduct.either (hR.setMeasured _ _) (hR.layContainer hv _ r))

end Course

end Pass

end Flexbox
