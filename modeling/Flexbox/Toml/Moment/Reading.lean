import Flexbox.Toml.Scalars

namespace Flexbox.Toml

def behind? (c : Char) : List Char → Option (List Char)
  | d :: rest => if c == d then some rest else none
  | [] => none

def digitField (count low high : Nat) : Reader Nat := fun cs =>
  let digits := cs.take count
  if digits.length == count && digits.all Char.isDigit then
    let n := Numeral.digitsValue digits
    if low ≤ n && n ≤ high then some (n, cs.drop count) else none
  else none

def date : Reader Date := fun cs => do
  let (year, cs) ← digitField 4 0 9999 cs
  let (month, cs) ← digitField 2 1 12 (← behind? '-' cs)
  let (day, cs) ← digitField 2 1 (Date.daysIn year month) (← behind? '-' cs)
  return (⟨year, month, day⟩, cs)

def nanoseconds (cs : List Char) : Nat × List Char :=
  match cs with
  | '.' :: rest =>
    let digits := rest.takeWhile Char.isDigit
    if digits.isEmpty then (0, cs)
    else (Numeral.digitsValue ((digits ++ List.replicate 9 '0').take 9), rest.drop digits.length)
  | _ => (0, cs)

def timeOfDay : Reader TimeOfDay := fun cs => do
  let (hour, cs) ← digitField 2 0 23 cs
  let (minute, cs) ← digitField 2 0 59 (← behind? ':' cs)
  let (second, cs) ← digitField 2 0 60 (← behind? ':' cs)
  let (nanosecond, cs) := nanoseconds cs
  return (⟨hour, minute, second, nanosecond⟩, cs)

def hoursAndMinutes : Reader Int := fun cs => do
  let (hours, cs) ← digitField 2 0 23 cs
  let (minutes, cs) ← digitField 2 0 59 (← behind? ':' cs)
  return (60 * hours + minutes, cs)

def offset : Reader (Option Int)
  | 'Z' :: rest | 'z' :: rest => some (some 0, rest)
  | '+' :: rest => (hoursAndMinutes rest).map fun (n, rest) => (some n, rest)
  | '-' :: rest => (hoursAndMinutes rest).map fun (n, rest) => (some (-n), rest)
  | cs => some (none, cs)

def timeBehindDate? : List Char → Option (TimeOfDay × List Char)
  | 'T' :: rest | 't' :: rest | ' ' :: rest => timeOfDay rest
  | _ => none

def moment : Reader Moment := fun cs =>
  match date cs with
  | none => (timeOfDay cs).map fun (time, rest) => (.time time, rest)
  | some (date, rest) => match timeBehindDate? rest with
    | none => some (.date date, rest)
    | some (time, rest) => (offset rest).map fun (offset, rest) =>
      (.dateTime date time offset, rest)

end Flexbox.Toml
