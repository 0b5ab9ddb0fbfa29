import Flexbox.Node

namespace Flexbox.Fixture

def cell : Float32 := 10

def within (natural : Float32) (offer : Offer Float32) : Float32 :=
  match offer.mode, offer.size with
  | .exactly, .known x => x
  | .atMost, .known x => Scalar.min natural x
  | _, _ => natural

def textSize (count : Nat) (width height : Offer Float32) : Size Float32 :=
  let chars := Float32.ofNat count
  let taken := within (chars * cell) width
  let perLine := Scalar.max (taken / cell).floor 1
  let lines := (chars / perLine).ceil
  ⟨taken, within (lines * cell) height⟩

def textMeasure (label : Option String) (content : String) : Measure Float32 :=
  ⟨label, textSize content.length⟩

end Flexbox.Fixture
