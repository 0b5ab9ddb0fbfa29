import Flexbox.Decimal.Shortest

namespace Flexbox

namespace Decimal

def magnitude (d : Decimal) : Int := d.exponent + (Nat.toDigits 10 d.digits).length

def toFloat (d : Decimal) : Float :=
  if d.digits == 0 || d.magnitude < -400 then 0
  else if 400 < d.magnitude then Float.ofScientific 1 false 400
  else Float.ofScientific d.digits (d.exponent < 0) d.exponent.natAbs

def toFloat32 (d : Decimal) : Float32 :=
  if d.digits == 0 || d.magnitude < -60 then 0
  else if 60 < d.magnitude then Float32.ofScientific 1 false 60
  else Float32.ofScientific d.digits (d.exponent < 0) d.exponent.natAbs

end Decimal

inductive Numeral
  | decimal (negative : Bool) (value : Decimal)
  | infinity (negative : Bool)
  | nan

namespace Numeral

def toFloat : Numeral → Float
  | decimal negative d => if negative then -d.toFloat else d.toFloat
  | infinity negative => if negative then -1 / 0 else 1 / 0
  | nan => 0 / 0

def toFloat32 : Numeral → Float32
  | decimal negative d => if negative then -d.toFloat32 else d.toFloat32
  | infinity negative => if negative then -1 / 0 else 1 / 0
  | nan => 0 / 0

def digitsValue (digits : List Char) : Nat :=
  digits.foldl (fun n c => 10 * n + (c.toNat - '0'.toNat)) 0

def splitSign : List Char → Bool × List Char
  | '-' :: rest => (true, rest)
  | '+' :: rest => (false, rest)
  | cs => (false, cs)

def exponent? : List Char → Option Int
  | [] => some 0
  | c :: rest =>
    let (negative, digits) := splitSign rest
    if (c == 'e' || c == 'E') && !digits.isEmpty && digits.all Char.isDigit then
      let n : Int := digitsValue digits
      some (if negative then -n else n)
    else none

def unsigned? (cs : List Char) : Option Decimal :=
  let whole := cs.takeWhile Char.isDigit
  let rest := cs.drop whole.length
  let (fraction, rest) := match rest with
    | '.' :: tail => (tail.takeWhile Char.isDigit, tail.dropWhile Char.isDigit)
    | _ => ([], rest)
  if whole.isEmpty && fraction.isEmpty then none
  else (exponent? rest).map fun e => ⟨digitsValue (whole ++ fraction), e - (fraction.length : Int)⟩

def ofText? (text : String) : Option Numeral :=
  let (negative, rest) := splitSign text.toList
  match String.ofList (rest.map Char.toLower) with
  | "inf" | "infinity" => some (.infinity negative)
  | "nan" => some .nan
  | _ => (unsigned? rest).map (.decimal negative)

end Numeral

end Flexbox
