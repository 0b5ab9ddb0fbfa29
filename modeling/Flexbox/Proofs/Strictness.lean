import Flexbox.Measurement
import Flexbox.Proofs.Binary32.Laws

namespace Flexbox

variable {α : Type} [Scalar α]

namespace AxisMeasurement

/-- What was measured has room in `x`. -/
def FitsIn (last : AxisMeasurement α) (x : α) : Prop :=
  Scalar.isNaN last.computed = false ∧
    (last.computed ≤ x ∨ (Extent.of x).near (.of last.computed) = true)

variable {last : AxisMeasurement α} {scale margin l w : α}

theorem sameOffer_gridless (hs : (scale == 0) = true) (offer : Offer α) :
    last.sameOffer scale offer = (last.mode == some offer.mode && last.size.near offer.size) := by
  have hgrid : ∀ size : Extent α, onGrid scale size = size := fun size => by
    simp [onGrid, bne, hs]
  rw [sameOffer, hgrid, hgrid]

/-- A bound is answered from one that was as wide, or from one that is wider than what the margin
leaves of it. -/
theorem answers_atMost (hs : (scale == 0) = true) (hm : Scalar.IsNumber margin)
    (hsize : last.size = .known l) (hmode : last.mode = some .atMost) :
    last.answers scale margin ⟨.known w, .atMost⟩ = true ↔
      Scalar.near l w = true ∨ w - margin < l ∧ last.FitsIn (w - margin) := by
  have hinner : (Extent.known w - .of margin : Extent α) = .known (w - margin) := by
    rw [Extent.of_number hm]
    rfl
  have hexact : last.exactlyComputed .atMost (.known (w - margin)) = false := rfl
  have hfree : last.freeAndFits .atMost (.known (w - margin)) = false := by
    simp [freeAndFits, hmode]
  unfold answers
  rw [sameOffer_gridless hs]
  dsimp only
  rw [hinner, hexact, hfree]
  simp [stricterAndFits, hsize, hmode, FitsIn, Extent.near, and_comm, and_assoc]

end AxisMeasurement

namespace Measurement

def along (m : Measurement α) : Dimension → AxisMeasurement α
  | .width => m.horizontal
  | .height => m.vertical

variable {last : Measurement α} {offers : Size (Offer α)} {margins : Size α} {scale l w : α}
  {d : Dimension}

theorem answers_iff : last.answers offers.width offers.height margins.width margins.height scale =
    true ↔ ∀ d, ¬ (last.along d).computed < 0 ∧
      (last.along d).answers scale (margins.get d) (offers.get d) = true := by
  have hall : ∀ P : Dimension → Prop, (∀ d, P d) ↔ P .width ∧ P .height := fun P =>
    ⟨fun h => ⟨h _, h _⟩, fun h d => by cases d <;> simp [h]⟩
  rw [hall]
  unfold answers
  split
  · rename_i hneg
    simp only [Bool.or_eq_true, decide_eq_true_eq] at hneg
    simp only [Bool.false_eq_true, false_iff]
    rintro ⟨⟨hw, -⟩, hh, -⟩
    exact hneg.elim hw hh
  · rename_i hpos
    simp only [Bool.or_eq_true, decide_eq_true_eq, not_or] at hpos
    rw [Bool.and_eq_true]
    exact ⟨fun h => ⟨⟨hpos.1, h.1⟩, hpos.2, h.2⟩, fun h => ⟨h.1.2, h.2.2⟩⟩

/-- On an axis with a remembered bound `l`, a new bound `w` is answered exactly if it is as large,
or if `w` less the margin is below `l` and holds what was measured. So where taking off the margin
changes nothing, only stricter bounds are answered; elsewhere a looser one is if it is looser by
less than the margin. -/
theorem answers_bound_iff_less_margin [Scalar.Lawful α] (hs : (scale == 0) = true)
    (hm : ∀ d, 0 ≤ margins.get d) (hw : offers.get d = ⟨.known w, .atMost⟩)
    (hsize : (last.along d).size = .known l) (hmode : (last.along d).mode = some .atMost) :
    (last.answers offers.width offers.height margins.width margins.height scale = true ↔
        (∀ e, ¬ (last.along e).computed < 0) ∧
        (∀ e ≠ d, (last.along e).answers scale (margins.get e) (offers.get e) = true) ∧
        (Scalar.near l w = true ∨
          w - margins.get d < l ∧ (last.along d).FitsIn (w - margins.get d))) ∧
      (last.answers offers.width offers.height margins.width margins.height scale = true →
        w - margins.get d = w → w < l ∨ Scalar.near l w = true) := by
  have hnumber := (Scalar.Lawful.le_number (hm d)).2
  have haxis := AxisMeasurement.answers_atMost (w := w) hs hnumber hsize hmode
  rw [← hw] at haxis
  rw [answers_iff]
  refine ⟨⟨fun h => ⟨fun e => (h e).1, fun e _ => (h e).2, haxis.mp (h d).2⟩, ?_⟩, ?_⟩
  · rintro ⟨hpos, hother, hbound⟩ e
    refine ⟨hpos e, ?_⟩
    by_cases he : e = d
    · exact he ▸ haxis.mpr hbound
    · exact hother e he
  · intro h hsame
    rcases haxis.mp (h d).2 with hnear | ⟨hlt, -⟩
    · exact Or.inr hnear
    · exact Or.inl (hsame ▸ hlt)

/-- A text of 50 by 20, measured in at most 100 by 50. -/
def roomy : Measurement Float32 :=
  ofOffers ⟨.known 100, .atMost⟩ ⟨.known 50, .atMost⟩ 50 20

/-- With a margin of 10, what was measured in 100 is the answer for 105. -/
theorem looser_bound_answered_roomy :
    roomy.answers ⟨.known 105, .atMost⟩ ⟨.known 50, .atMost⟩ 10 0 0 = true ∧
      ¬ (105 : Float32) < 100 ∧ Scalar.near (100 : Float32) 105 = false := by
  decide +kernel

theorem answers_bound_iff_less_margin_roomy :
    (∀ d, (0 : Float32) ≤ (⟨10, 0⟩ : Size Float32).get d) ∧
      (roomy.along .width).FitsIn (105 - 10) ∧
      roomy.answers ⟨.known 105, .atMost⟩ ⟨.known 50, .atMost⟩ 10 0 0 = true := by
  have hm : ∀ d, (0 : Float32) ≤ (⟨10, 0⟩ : Size Float32).get d := fun d => by
    cases d <;> decide +kernel
  have hfits : (roomy.along .width).FitsIn (105 - 10) :=
    ⟨by decide +kernel, Or.inl (by decide +kernel)⟩
  have hw : (⟨⟨.known 105, .atMost⟩, ⟨.known 50, .atMost⟩⟩ : Size (Offer Float32)).get .width =
      ⟨.known 105, .atMost⟩ := rfl
  refine ⟨hm, hfits, (answers_bound_iff_less_margin (by decide +kernel) hm hw rfl rfl).1.mpr
    ⟨fun e => ?_, fun e he => ?_, Or.inr ⟨by decide +kernel, hfits⟩⟩⟩
  · cases e <;> decide +kernel
  · cases e with
    | width => exact absurd rfl he
    | height => decide +kernel

end Measurement

end Flexbox
