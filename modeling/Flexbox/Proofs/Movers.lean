import Flexbox.Proofs.Chores
import Flexbox.Proofs.Moves

namespace Flexbox

variable {α : Type}

namespace Node

variable {n m : Node α}

theorem Kin.placed_position [Scalar α] (h : Kin n m) (direction : Direction)
    (main cross width : Extent α) : (m.placed direction main cross width).position =
      (n.placed direction main cross width).position := by
  rw [h]
  unfold placed
  dsimp only
  -- All four sides are written.
  generalize (if n.owner.isSome then direction else .ltr) = direction
  generalize n.style.flexDirection.resolve direction = axis
  cases axis <;> cases direction <;> rfl

end Node

namespace Pass

variable [Scalar α] {S : Set NodeId} {p q : Pass α} {id child : NodeId} {c : Container α}
  {children : List NodeId} {t : Chore α}

/-- Answers a request by steps inside `S`. -/
def Mover (S : Set NodeId) (visit : Visitor α) : Prop :=
  ∀ id r p, Admitted S p id → Moves S p (visit id r p)

section

variable (hid : id ∈ S)

include hid

theorem update_moves {f : Node α → Node α} (hf : ∀ n, Node.SameCore n (f n)) :
    Moves S p (p.update id f) :=
  (Step.update p hid hf).moves

theorem updateGeometry_moves (f : Geometry α → Geometry α) : Moves S p (p.updateGeometry id f) :=
  update_moves hid fun _ => rfl

theorem redraw_moves (f : Node α → Geometry α) : Moves S p (p.redraw id f) :=
  update_moves hid fun _ => rfl

theorem setPosition_moves (side : Side) (x : α) : Moves S p (p.setPosition id side x) :=
  updateGeometry_moves hid _

theorem shiftBy_moves (side : Side) (f : α → α) : Moves S p (p.shiftBy id side f) :=
  updateGeometry_moves hid _

theorem setMeasured_moves (width height : α) : Moves S p (p.setMeasured id width height) :=
  updateGeometry_moves hid _

end

theorem ite_moves {b : Prop} [Decidable b] {r : Pass α} (hq : Moves S p q) (hr : Moves S p r) :
    Moves S p (if b then q else r) := by
  split
  · exact hq
  · exact hr

theorem count_moves {f : Stats → Stats} (hf : ∀ s, s.maxMeasureCache ≤ (f s).maxMeasureCache) :
    Moves S p (p.count f) :=
  (Step.count p hf).moves

theorem foldl_moves {σ γ : Type} (pass : σ → Pass α) {f : σ → γ → σ} (xs : List γ) {s : σ}
    (hf : ∀ s' x, x ∈ xs → Moves S (pass s) (pass s') → Moves S (pass s') (pass (f s' x))) :
    Moves S (pass s) (pass (xs.foldl f s)) := by
  induction xs generalizing s with
  | nil => exact Moves.refl _
  | cons x xs ih =>
    have hx := hf s x (by simp) (Moves.refl _)
    refine hx.trans (ih fun s' y hy hm => hf s' y (by simp [hy]) (hx.trans hm))

/-- A relation of passes that bears all that is done inside `S`. A node is flagged only where it
clips what runs over, or where a child of it is flagged. -/
structure Conduct (S : Set NodeId) (R : Pass α → Pass α → Prop) : Prop where
  refl : ∀ p, R p p
  trans : ∀ {p q r}, R p q → R q r → R p r
  moves : ∀ {p q}, R p q → Moves S p q
  update : ∀ p {id} {f : Node α → Node α}, id ∈ S → (∀ n, Node.SameCore n (f n)) →
    (∀ n, (f n).geometry.hadOverflow = true → n.geometry.hadOverflow = true) →
    R p (p.update id f)
  own : ∀ {p id}, Admitted S p id → R p (p.ownChildren id)
  tell : ∀ p e, R p (p.tell e)
  record : ∀ p {v : Visit α}, v.node ∈ S → R p (p.record v)
  count : ∀ p {f : Stats → Stats}, (∀ s, s.maxMeasureCache ≤ (f s).maxMeasureCache) →
    R p (p.count f)
  overrun : ∀ {p id}, Admitted S p id → ((p.node id).style.overflow != .visible) = true →
    R p (p.updateGeometry id fun g => { g with hadOverflow := true })
  heed : ∀ {p q id x}, Held S p id → x ∈ p.children id → R p q →
    (q.node x).geometry.hadOverflow = true →
    R q (q.updateGeometry id fun g => { g with hadOverflow := true })

theorem Moves.conduct (S : Set NodeId) : Conduct S (Moves S : Pass α → Pass α → Prop) where
  refl := Moves.refl
  trans := Moves.trans
  moves h := h
  update p _ _ hid hf _ := (Step.update p hid hf).moves
  own h := (Step.own _ h.mem h.live).moves
  tell p e := (Step.tell p e).moves
  record p _ hv := (Step.record p hv).moves
  count p _ hf := (Step.count p hf).moves
  overrun h _ := updateGeometry_moves h.mem _
  heed h _ _ _ := updateGeometry_moves h.mem _

namespace Conduct

variable {R : Pass α → Pass α → Prop} (hR : Conduct S R) {r : Pass α}

omit [Scalar α] in
theorem either {b : Prop} [Decidable b] (hq : R p q) (hr : R p r) : R p (if b then q else r) := by
  split
  · exact hq
  · exact hr

include hR

theorem updateGeometry (hid : id ∈ S) {f : Geometry α → Geometry α}
    (hf : ∀ g, (f g).hadOverflow = true → g.hadOverflow = true) : R p (p.updateGeometry id f) :=
  hR.update p hid (fun _ => rfl) fun n => hf n.geometry

theorem setMeasured (hid : id ∈ S) (width height : α) : R p (p.setMeasured id width height) :=
  hR.updateGeometry hid fun _ h => h

theorem zeroOut (fuel : Nat) (h : Admitted S p id) : R p (Pass.zeroOut fuel id p) := by
  induction fuel generalizing p id with
  | zero => exact hR.refl p
  | succ fuel ih =>
    have hu : R p (p.update id Node.emptied) :=
      hR.update p h.mem (fun _ => rfl) fun _ hn => by cases hn
    have hadmitted := (hR.moves hu).admitted h
    rw [zeroOut_succ]
    refine hR.trans (hR.trans hu (hR.own hadmitted)) ?_
    have hheld := hadmitted.own
    generalize (p.update id _).ownChildren id = q at hheld ⊢
    have hall : ∀ x ∈ q.children id, Admitted S q x := fun x hx => hheld.child hx
    generalize q.children id = xs at hall ⊢
    induction xs generalizing q with
    | nil => exact hR.refl q
    | cons x xs hxs =>
      have hx := ih (hall x (by simp))
      exact hR.trans hx (hxs _ ((hR.moves hx).held hheld) fun y hy =>
        (hR.moves hx).admitted (hall y (by simp [hy])))

variable {visit : Visitor α} (hv : ∀ id r p, Admitted S p id → R p (visit id r p))
  {P : Chore α → Prop}

include hv

theorem does {t : Chore α} (h : Held S p id) (hpq : R p q) (ht : About (p.children id) t)
    (hd : Does visit id t q r) : R q r := by
  have hchild : ∀ {x}, x ∈ p.children id → Admitted S q x := fun hx =>
    (hR.moves hpq).admitted (h.child hx)
  cases hd with
  | note _ _ hflag => exact hR.updateGeometry h.mem hflag
  | overrun _ hover => exact hR.overrun ((hR.moves hpq).admitted h.toAdmitted) hover
  | heed _ x hover => exact hR.heed h ht hpq hover
  | settle | base | number => exact hR.update q (hchild ht).mem (fun _ => rfl) fun _ hn => hn
  | place _ x hf =>
    refine hR.update q (hchild ht).mem (fun _ => rfl) fun n hn => ?_
    dsimp only at hn
    rwa [hf n] at hn
  | clear _ _ fuel => exact hR.zeroOut fuel (hchild ht)
  | ask _ x r => exact hv x r q (hchild ht)
  | tell => exact hR.tell q _
  | count _ hf => exact hR.count q hf

theorem works (h : Held S p id) (hw : Works visit id (fun t => P t ∧ About (p.children id) t) p q) :
    R p q := by
  induction hw with
  | refl => exact hR.refl p
  | tail _ hd ih =>
    obtain ⟨t, ht, hd⟩ := hd
    exact hR.trans ih (hR.does hv h ih ht.2 hd)

theorem labors (h : Held S p id) (hl : Labors visit id P p q) : R p q := by
  induction hl with
  | refl => exact hR.refl p
  | tail _ hw ih => exact hR.trans ih (hR.works hv ((hR.moves ih).held h) hw)

omit hv in
theorem measureLeaf (measure : Measure α) (r : Request α) (h : id ∈ S) :
    R p (p.measureLeaf id measure r) := by
  refine either (hR.setMeasured h _ _) (hR.trans ?_ (hR.setMeasured h _ _))
  exact hR.trans (hR.tell p _) (hR.count _ (by simp))

theorem layNode (r : Request α) (h : Admitted S p id) : R p (p.layNode visit id r) := by
  have hedges : R p (p.edged id r) := hR.trans (hR.count p fun s => by split <;> exact le_rfl)
    (hR.update _ h.mem (fun _ => rfl) fun _ hn => hn)
  rw [layNode_eq]
  refine hR.trans hedges ?_
  unfold layInside
  split
  · exact hR.measureLeaf _ r h.mem
  · have hin := (hR.moves hedges).admitted h
    exact either (hR.setMeasured h.mem _ _) (either (hR.setMeasured h.mem _ _)
      (hR.trans (hR.own hin) (hR.labors hv hin.own (layContainer_labors _ r))))

theorem compute (r : Request α) (h : Admitted S p id) : R p (p.compute visit id r) := by
  have hkept : ∀ g : Geometry α, (g.remember r).hadOverflow = true → g.hadOverflow = true := by
    intro g hg
    unfold Geometry.remember at hg
    split at hg <;> exact hg
  have hrec := hR.record p (v := ⟨id, r, .computed⟩) h.mem
  unfold Pass.compute
  refine hR.trans ?_ (hR.count _ fun s => le_max_left _ _)
  refine hR.trans ?_ (hR.updateGeometry h.mem hkept)
  refine hR.trans ?_ (hR.updateGeometry h.mem fun _ hg => hg)
  exact hR.trans hrec (hR.layNode hv r ((hR.moves hrec).admitted h))

omit hv in
theorem restore (r : Request α) (source : Source) (h : id ∈ S) : R p (p.restore id r source) := by
  unfold Pass.restore
  refine hR.trans ?_ (hR.count _ fun s => by split <;> exact le_rfl)
  refine hR.trans (hR.record p h) (hR.updateGeometry h fun g hg => ?_)
  split at hg <;> exact hg

omit hv in
theorem finish (r : Request α) (h : id ∈ S) : R p (p.finish id r) := by
  unfold Pass.finish
  refine hR.trans ?_ (hR.updateGeometry h fun _ hg => hg)
  exact either (hR.update p h (by intro; rfl) fun _ hn => hn) (hR.refl p)

end Conduct

theorem zeroOut_moves (fuel : Nat) (h : Admitted S p id) : Moves S p (zeroOut fuel id p) :=
  (Moves.conduct S).zeroOut fuel h

theorem edged_moves (hid : id ∈ S) (r : Request α) : Moves S p (p.edged id r) :=
  (count_moves fun s => by split <;> exact le_rfl).trans (redraw_moves hid _)

theorem updateGeometryIf_moves (hid : id ∈ S) (b : Bool) (f : Geometry α → Geometry α) :
    Moves S p (p.updateGeometryIf b id f) :=
  ite_moves (updateGeometry_moves hid f) (Moves.refl p)

theorem Works.moves {visit : Visitor α} (h : Works visit id (· = .report) p q) : Moves S p q := by
  induction h with
  | refl => exact Moves.refl p
  | tail _ hd ih =>
    obtain ⟨_, rfl, hd⟩ := hd
    refine ih.trans ?_
    cases hd with
    | tell => exact (Step.tell _ _).moves
    | count _ hf => exact count_moves hf

theorem baselineWithin_moves (fuel : Nat) : Moves S p (baselineWithin fuel id p).2 :=
  have hw : Works (fun _ _ p => p) id (· = .report) p (baselineWithin fuel id p).2 :=
    baselineWithin_works fuel rfl
  hw.moves

theorem layNode_moves {visit : Visitor α} (hv : Mover S visit) (r : Request α)
    (h : Admitted S p id) : Moves S p (p.layNode visit id r) :=
  (Moves.conduct S).layNode hv r h

/-- The pass once a visit has made a node forget what is out of date. -/
def refresh (p : Pass α) (id : NodeId) (direction : Direction) : Pass α :=
  if (p.node id).isOutdated p.generation direction then p.updateGeometry id Geometry.forget else p

theorem visit_succ (fuel : Nat) (id : NodeId) (r : Request α) (p : Pass α) :
    visit (fuel + 1) id r p =
      let q := p.refresh id r.ownerDirection
      match (q.node id).remembered? r with
      | some source => (false, (q.restore id r source).finish id r)
      | none => (true, (q.compute (fun id r p => (visit fuel id r p).2) id r).finish id r) :=
  (rfl)

theorem Conduct.visit {R : Pass α → Pass α → Prop} (hR : Conduct S R) (fuel : Nat) (r : Request α)
    (h : Admitted S p id) : R p (Pass.visit fuel id r p).2 := by
  induction fuel generalizing p id r with
  | zero => exact hR.refl p
  | succ fuel ih =>
    rw [visit_succ]
    have hforget : R p (p.refresh id r.ownerDirection) :=
      either (hR.updateGeometry h.mem fun _ hg => hg) (hR.refl p)
    generalize p.refresh id _ = q at hforget ⊢
    dsimp only
    split
    · exact hR.trans hforget (hR.trans (hR.restore r _ h.mem) (hR.finish r h.mem))
    · refine hR.trans hforget (hR.trans ?_ (hR.finish r h.mem))
      exact hR.compute (fun id r p hp => ih r hp) r ((hR.moves hforget).admitted h)

theorem visit_moves (fuel : Nat) (r : Request α) (h : Admitted S p id) :
    Moves S p (Pass.visit fuel id r p).2 :=
  (Moves.conduct S).visit fuel r h

end Pass

end Flexbox
