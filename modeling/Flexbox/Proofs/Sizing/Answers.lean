import Flexbox.Proofs.Sizing.Offers

namespace Flexbox

variable {α : Type} [Scalar α]

open Scalar (IsNumber IsFinite Lawful)

def Dimension.axis : Dimension → FlexDirection
  | .width => .row
  | .height => .column

def Request.offer {α : Type} (r : Request α) : Dimension → Offer α
  | .width => r.width
  | .height => r.height

namespace Node

variable [Lawful α] {n : Node α} {loose : Prop} {r : Request α}
  {width : Extent α}

def FitsBoth (loose : Prop) (n : Node α) (size : Size α) : Prop :=
  ∀ d, Fits loose n d (size.get d)

section

variable (hfirm : ∀ d M, n.Pinned d M → loose ∨ (r.offer d).Firm)

include hfirm

theorem boundSize_fits (hw : loose ∨ n.Balanced width) {size : Size (Extent α)}
    (hsize : ∀ d, (r.offer d).Firm → size.get d = (r.offer d).size - Extent.of (n.marginFor d.axis
      width)) : n.FitsBoth loose (n.boundSize r size) := by
  have hknown : ∀ d M, n.Pinned d M → loose ∨ ∃ x, size.get d = .known x ∧ IsNumber x := by
    intro d M hM
    rcases hfirm d M hM with hl | ho
    · exact Or.inl hl
    refine hw.imp_right fun hw => ?_
    rw [hsize d ho]
    exact ho.less (hw d.axis)
  intro d
  cases d with
  | width => exact bound_fits .row _ _ _ n (hknown .width)
  | height => exact bound_fits .column _ _ _ n (hknown .height)

theorem leafSize_fits (hw : loose ∨ n.Balanced r.width.size) (content : Size α) :
    n.FitsBoth loose (n.boundSize r (n.leafSize r content)) := by
  refine boundSize_fits hfirm hw fun d ho => ?_
  cases d <;> exact if_pos (beq_iff_eq.mpr ho.1)

theorem emptySize_fits (hw : loose ∨ n.Balanced r.ownerWidth) :
    n.FitsBoth loose (n.emptySize r) := by
  refine boundSize_fits hfirm hw fun d ho => ?_
  cases d <;> exact if_pos (beq_iff_eq.mpr ho.1)

theorem settledSize_fits (hw : loose ∨ n.Balanced r.ownerWidth) :
    n.FitsBoth loose (n.settledSize r) := by
  refine boundSize_fits hfirm hw fun d ho => ?_
  cases d <;> exact if_neg ho.settles

end

end Node

namespace Container

variable [Lawful α] {n : Node α} {c : Container α} {loose : Prop}
  {axis : FlexDirection} {frame content : α}

theorem finalSize_scroll_fits (inner ownerSize : Extent α)
    (hframe : frame = n.frameFor axis c.ownerWidth)
    (hcontent : ∀ M, n.Capped axis.dimension M → IsNumber content)
    (hloose : ∀ M, n.Pinned axis.dimension M → loose) :
    n.Fits loose axis.dimension ((((inner + Extent.of frame).min
      (n.clamp axis (.of content) ownerSize)).max (.of frame)).getD frame) := by
  have hnum : IsNumber frame := hframe ▸ Node.frameFor_number axis c.ownerWidth n
  rw [Extent.of_number hnum]
  generalize hfit :
    (inner + Extent.known frame).min (n.clamp axis (.of content) ownerSize) = fitting
  refine ⟨?_, fun M hM => ?_, fun M hM => Or.inl (hloose M hM)⟩
  · cases fitting with
    | undefined => exact hnum
    | known x => exact Scalar.max_number (Or.inr hnum)
  · have hle : frame ≤ M := hframe ▸ hM.frame axis rfl c.ownerWidth
    have hc := hcontent M hM
    obtain ⟨y, hy, hyn⟩ : ∃ y, n.clamp axis (.of content) ownerSize = .known y ∧ IsNumber y := by
      rcases Node.clamp_cases axis (.of content) ownerSize n with he | hk
      · exact ⟨content, by rw [he, Extent.of_number hc], hc⟩
      · exact hk
    have hyM := hM.clamp_le axis _ ownerSize rfl hyn hy
    rw [hy] at hfit
    cases fitting with
    | undefined => exact hle
    | known z =>
      refine Scalar.max_le (fun _ => ?_) hle
      cases hsum : inner + Extent.known frame with
      | undefined =>
        rw [hsum] at hfit
        obtain rfl := Extent.known.inj hfit
        exact hyM
      | known w =>
        rw [hsum] at hfit
        obtain rfl := Extent.known.inj hfit
        exact Lawful.le_trans (Scalar.min_le_right hyn) hyM

theorem finalSize_fits {mode : MeasureMode} {offered : Extent α} (inner ownerSize : Extent α)
    (hframe : frame = n.frameFor axis c.ownerWidth)
    (hcontent : ∀ M, n.Capped axis.dimension M → IsNumber content)
    (hfirm : ∀ M, n.Pinned axis.dimension M → loose ∨
      (⟨offered, mode⟩ : Offer α).Firm ∧ n.Balanced c.ownerWidth) :
    n.Fits loose axis.dimension
      (c.finalSize n axis mode offered inner ownerSize frame content) := by
  have hbound : mode ≠ .exactly → ∀ M, n.Pinned axis.dimension M → loose := fun hne M hM =>
    (hfirm M hM).resolve_right fun ⟨ho, _⟩ => hne ho.1
  have hplain : mode ≠ .exactly → n.Fits loose axis.dimension
      (n.bound axis (.of content) ownerSize c.ownerWidth) := fun hne =>
    Node.bound_fits axis _ _ _ n fun M hM => Or.inl (hbound hne M hM)
  unfold finalSize
  split
  · exact hplain nofun
  · exact hplain nofun
  · exact hplain nofun
  · exact finalSize_scroll_fits inner ownerSize hframe hcontent (hbound nofun)
  · dsimp only
    have hdim : (if axis.isRow = true then FlexDirection.row else .column).dimension =
        axis.dimension := by
      unfold FlexDirection.dimension
      cases axis.isRow <;> rfl
    rw [← hdim]
    refine Node.bound_fits _ _ _ _ n fun M hM => ?_
    rw [hdim] at hM
    exact (hfirm M hM).imp_right fun ⟨ho, hw⟩ => ho.less (hw _)

end Container

end Flexbox
