import Flexbox.Proofs.Attending
import Flexbox.Proofs.Shares

namespace Flexbox

variable {α : Type} [Scalar α]

namespace Container

variable {c : Container α} {f g : NodeId → Node α} {items : List NodeId}

end Container

namespace Pass

variable {b p q : Pass α} {c : Container α} {v : Visitor α} {x : NodeId}
  {plan : LinesPlan α} {xs : List NodeId} {s : LinesState α}

/-- The children that are left are as they were when the lines were begun. -/
structure Unlaid (b : Pass α) (left : List NodeId) (p : Pass α) : Prop where
  moves : Moves Set.univ b p
  left : ∀ x ∈ left, Moves {x}ᶜ b p

theorem Unlaid.node (h : Unlaid b xs p) (hs : b.tree.Sound) (hx : x ∈ xs) (hl : b.tree.Live x) :
    ∃ j, p.node x = { b.node x with sharedCount := j } := by
  obtain ⟨j, hj⟩ := (h.left x hx).untouched hs (by simp) (node_eq hl)
  exact ⟨j, node_of_find? hj⟩

section

variable (hb : Nested b c.id) (hv : Discreet v) (hxs : ∀ x ∈ xs, x ∈ b.children c.id)

include hb hv hxs

end

section

variable (hb : Nested b c.id) (hv : Attentive v) (hm : Moves Set.univ b s.pass)
  (hxs : ∀ x ∈ xs, x ∈ b.children c.id)

include hb hv hm hxs

end

section

variable (hb : Nested b c.id) (hv : Attentive v)
  (hw : Works v c.id (Upkeep true (b.children c.id)) b p)

include hb hv hw

end

section

variable (hb : Nested b c.id) (hv : Attentive v) {l : LineStart α} {i : Nat}

include hb hv

variable (hs : layLines v c plan (b.children c.id).length (b.children c.id)
  ⟨c.innerMain, 0, 0, 0, b⟩ = s)

include hs

end

end Pass

namespace Tree

end Tree

end Flexbox
