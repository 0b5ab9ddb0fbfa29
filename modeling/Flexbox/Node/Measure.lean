import Flexbox.Node

namespace Flexbox

variable {α : Type} [Scalar α]

namespace Measure

def fixed (label : Option String) (width height : α) : Measure α :=
  ⟨label, fun _ _ => ⟨width, height⟩⟩

def fill (label : Option String) (width height : α) : Measure α :=
  ⟨label, fun w h => ⟨w.size.getD width, h.size.getD height⟩⟩

def area (label : Option String) (width height : α) : Measure α :=
  ⟨label, fun offer _ =>
    let offered := offer.size.getD width
    let taken := match offer.mode with
      | .exactly => offered
      | .atMost => Scalar.min offered width
      | .undefined => width
    ⟨taken, if 0 < taken then width * height / taken else height⟩⟩

end Measure

namespace Baseline

def ofHeight (label : String) (factor plus : α) : Baseline α :=
  ⟨label, fun _ height => height * factor + plus⟩

end Baseline

end Flexbox
