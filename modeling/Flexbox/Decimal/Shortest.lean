namespace Flexbox

structure Decimal where
  digits : Nat
  exponent : Int
  deriving DecidableEq, Repr

namespace Decimal

structure Window where
  low : Nat
  value : Nat
  high : Nat
  den : Nat
  closed : Bool

/-- The reals that round to `mantissa · 2 ^ exponent`, ties to the even mantissa. The gap below
is half as wide when `narrow`, which is the case at the smallest mantissa of a binade. -/
def Window.ofBinary (mantissa : Nat) (exponent : Int) (narrow : Bool) : Window :=
  let shift := exponent - 2
  let scale := Nat.pow 2 shift.toNat
  { low := (4 * mantissa - if narrow then 1 else 2) * scale
    value := 4 * mantissa * scale
    high := (4 * mantissa + 2) * scale
    den := Nat.pow 2 (-shift).toNat
    closed := mantissa % 2 == 0 }

def Window.onGrid (w : Window) (exponent : Int) : Window :=
  let up := Nat.pow 10 (-exponent).toNat
  { w with
    low := w.low * up
    value := w.value * up
    high := w.high * up
    den := w.den * Nat.pow 10 exponent.toNat }

def Window.contains (w : Window) (n : Nat) : Bool :=
  if w.closed then w.low ≤ n * w.den && n * w.den ≤ w.high
  else w.low < n * w.den && n * w.den < w.high

/-- The multiple of `10 ^ exponent` inside the window that is nearest to its value, a tie going
up. Only the two neighbours of the value need a look. -/
def Window.nearest? (w : Window) (exponent : Int) : Option Decimal :=
  let g := w.onGrid exponent
  let below := g.value / g.den
  let twice := 2 * (g.value - below * g.den)
  let upFirst := g.den ≤ twice
  let first := if upFirst then below + 1 else below
  let second := if upFirst then below else below + 1
  if g.contains first then some ⟨first, exponent⟩
  else if g.contains second then some ⟨second, exponent⟩
  else none

def Window.coarsest? (w : Window) (top : Int) (count : Nat) : Option Decimal :=
  (List.range count).findSome? fun (i : Nat) => w.nearest? (top - (i : Int))

end Decimal

structure Binary where
  mantissa : Nat
  exponent : Int
  /-- The number below is nearer than the number above. -/
  narrow : Bool
  deriving DecidableEq, Repr

def Binary.ofBits? (bits : UInt32) : Option Binary :=
  let fraction : Nat := bits.toNat % 0x800000
  let biased : Nat := bits.toNat / 0x800000 % 0x100
  if biased == 255 then none
  else if biased == 0 then some ⟨fraction, -149, false⟩
  else some ⟨0x800000 + fraction, (biased : Int) - 150, fraction == 0 && biased != 1⟩

def Binary.shortest (b : Binary) : Decimal :=
  if b.mantissa == 0 then ⟨0, 0⟩
  else ((Decimal.Window.ofBinary b.mantissa b.exponent b.narrow).coarsest? 38 84).getD ⟨0, 0⟩

end Flexbox
