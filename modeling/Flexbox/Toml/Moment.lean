namespace Flexbox.Toml

structure Date where
  year : Nat
  month : Nat
  day : Nat
  deriving DecidableEq, Repr

namespace Date

def isLeapYear (year : Nat) : Bool := year % 4 == 0 && (year % 100 != 0 || year % 400 == 0)

def daysIn (year month : Nat) : Nat :=
  if month == 2 then if isLeapYear year then 29 else 28
  else if [4, 6, 9, 11].contains month then 30
  else 31

end Date

structure TimeOfDay where
  hour : Nat
  minute : Nat
  second : Nat
  nanosecond : Nat
  deriving DecidableEq, Repr

inductive Moment
  | date (date : Date)
  | time (time : TimeOfDay)
  /-- A time on a date. With an offset, in minutes, it is the same instant everywhere. -/
  | dateTime (date : Date) (time : TimeOfDay) (offset : Option Int)
  deriving DecidableEq, Repr

end Flexbox.Toml
