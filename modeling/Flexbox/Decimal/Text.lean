import Flexbox.Decimal.Shortest

namespace Flexbox

structure NumberForm where
  /-- Stands behind a number that has no digits after the point. -/
  whole : String
  /-- Powers of ten of the leading digit for which no exponent is written. -/
  positional : Int → Bool

def NumberForm.plain : NumberForm :=
  ⟨"", fun _ => true⟩

def NumberForm.record : NumberForm :=
  ⟨".0", fun lead => -4 ≤ lead && lead < 16⟩

namespace Decimal

def lead (d : Decimal) : Int :=
  d.exponent + ((Nat.toDigits 10 d.digits).length - 1 : Nat)

def placed (d : Decimal) (whole : String) : String :=
  let ds := Nat.toDigits 10 d.digits
  match d.exponent with
  | .ofNat n => String.ofList (ds ++ List.replicate n '0') ++ whole
  | .negSucc n =>
    let after := n + 1
    let padded := List.replicate (after + 1 - ds.length) '0' ++ ds
    let cut := padded.length - after
    String.ofList (padded.take cut) ++ "." ++ String.ofList (padded.drop cut)

def scientific (d : Decimal) : String :=
  let ds := Nat.toDigits 10 d.digits
  let rest := ds.drop 1
  let mantissa := if rest.isEmpty then ds else ds.take 1 ++ '.' :: rest
  String.ofList mantissa ++ "e" ++ toString d.lead

def write (form : NumberForm) (d : Decimal) : String :=
  if d.digits == 0 || form.positional d.lead then d.placed form.whole else d.scientific

end Decimal

def NumberForm.write (form : NumberForm) (x : Float32) : String :=
  if x.isNaN then "NaN"
  else
    let bits := x.toBits
    let sign := if 0x80000000 ≤ bits.toNat then "-" else ""
    match Binary.ofBits? bits with
    | none => sign ++ "inf"
    | some b => sign ++ b.shortest.write form

end Flexbox
