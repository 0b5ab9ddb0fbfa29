import Flexbox.Decimal.Text

namespace Flexbox

class Scalar (α : Type) extends Zero α, One α, Add α, Sub α, Mul α, Div α, Neg α,
    LT α, LE α, BEq α where
  decLt : DecidableLT α
  decLe : DecidableLE α
  ofNat : Nat → α
  ofDecimal (digits places : Nat) : α
  /-- The part after the point, with the sign of the number. -/
  fract : α → α
  /-- The number itself, or the largest finite one in place of what lies beyond. -/
  cap : α → α
  text : α → String

namespace Scalar

variable {α : Type} [Scalar α]

instance : DecidableLT α := decLt
instance : DecidableLE α := decLe

def isNaN (x : α) : Bool := !(x == x)

def max (a b : α) : α := if isNaN b then a else if b < a then a else b

def min (a b : α) : α := if isNaN b then a else if a < b then a else b

def abs (x : α) : α := if x < 0 then -x else x

def half (x : α) : α := x / ofNat 2

def tolerance : α := ofDecimal 1 4

def near (a b : α) : Bool := abs (a - b) < (tolerance : α)

end Scalar

instance : Scalar Float32 where
  zero := 0
  one := 1
  decLt := fun a b => inferInstanceAs (Decidable (a < b))
  decLe := fun a b => inferInstanceAs (Decidable (a ≤ b))
  ofNat := Float32.ofNat
  ofDecimal digits places := Float32.ofScientific digits true places
  fract x :=
    let rest := x - if x < 0 then x.ceil else x.floor
    if rest == 0 then x * 0 else rest
  cap x :=
    let largest := Float32.ofBits 0x7f7fffff
    if x ≤ largest then x else largest
  text := NumberForm.plain.write

end Flexbox
