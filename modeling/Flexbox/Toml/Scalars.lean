import Flexbox.Decimal.Reading
import Flexbox.Toml.Value

namespace Flexbox.Toml

abbrev Reader (β : Type) := List Char → Option (β × List Char)

def isBlank (c : Char) : Bool := c == ' ' || c == '\t'

def skipBlanks (cs : List Char) : List Char := cs.dropWhile isBlank

def isPlain (c : Char) : Bool := c == '\t' || (0x20 ≤ c.toNat && c.toNat != 0x7f)

def lineBreak? : List Char → Option (List Char)
  | '\n' :: rest => some rest
  | '\r' :: '\n' :: rest => some rest
  | _ => none

def escaped? : Char → Option Char
  | 'b' => some '\x08'
  | 't' => some '\t'
  | 'n' => some '\n'
  | 'f' => some '\x0c'
  | 'r' => some '\r'
  | '"' => some '"'
  | '\\' => some '\\'
  | _ => none

def hexDigit? (c : Char) : Option Nat :=
  if c.isDigit then some (c.toNat - '0'.toNat)
  else if 'a' ≤ c && c ≤ 'f' then some (c.toNat - 'a'.toNat + 10)
  else if 'A' ≤ c && c ≤ 'F' then some (c.toNat - 'A'.toNat + 10)
  else none

def codePoint? (count : Nat) (cs : List Char) : Option Char := do
  let digits ← (cs.take count).mapM hexDigit?
  if digits.length != count then none
  else
    let n := digits.foldl (fun n d => 16 * n + d) 0
    if n.isValidChar then some (Char.ofNat n) else none

def escape? (cs : List Char) : Option (Char × Nat) :=
  match cs with
  | 'u' :: rest => (codePoint? 4 rest).map fun c => (c, 5)
  | 'U' :: rest => (codePoint? 8 rest).map fun c => (c, 9)
  | c :: _ => (escaped? c).map fun c => (c, 1)
  | [] => none

def basic : Nat → List Char → Reader String
  | 0, _, _ => none
  | _, _, [] => none
  | fuel + 1, seen, c :: rest =>
    if c == '"' then some (String.ofList seen.reverse, rest)
    else if c == '\\' then do
      let (c, length) ← escape? rest
      basic fuel (c :: seen) (rest.drop length)
    else if isPlain c then basic fuel (c :: seen) rest
    else none

def literal : List Char → Reader String
  | _, [] => none
  | seen, c :: rest =>
    if c == '\'' then some (String.ofList seen.reverse, rest)
    else if isPlain c then literal (c :: seen) rest
    else none

def closing? (quote : Char) (cs : List Char) : Option (Nat × List Char) :=
  let quotes := (cs.takeWhile (· == quote)).length
  if quotes < 3 then none
  else
    let taken := min quotes 5
    some (taken - 3, cs.drop taken)

def skipSpace : List Char → List Char
  | '\r' :: '\n' :: rest => skipSpace rest
  | c :: rest => if isBlank c || c == '\n' then skipSpace rest else c :: rest
  | [] => []

def basicLines : Nat → List Char → Reader String
  | 0, _, _ => none
  | _, _, [] => none
  | fuel + 1, seen, c :: rest =>
    match closing? '"' (c :: rest) with
    | some (extra, rest) => some (String.ofList (List.replicate extra '"' ++ seen).reverse, rest)
    | none =>
      if c == '"' then basicLines fuel ('"' :: seen) rest
      else if c == '\\' then
        match lineBreak? (skipBlanks rest) with
        | some rest => basicLines fuel seen (skipSpace rest)
        | none => do
          let (c, length) ← escape? rest
          basicLines fuel (c :: seen) (rest.drop length)
      else match lineBreak? (c :: rest) with
        | some rest => basicLines fuel ('\n' :: seen) rest
        | none => if isPlain c then basicLines fuel (c :: seen) rest else none

def literalLines : Nat → List Char → Reader String
  | 0, _, _ => none
  | _, _, [] => none
  | fuel + 1, seen, c :: rest =>
    match closing? '\'' (c :: rest) with
    | some (extra, rest) => some (String.ofList (List.replicate extra '\'' ++ seen).reverse, rest)
    | none => match lineBreak? (c :: rest) with
      | some rest => literalLines fuel ('\n' :: seen) rest
      | none => if c == '\'' || isPlain c then literalLines fuel (c :: seen) rest else none

def skipFirstBreak (cs : List Char) : List Char := (lineBreak? cs).getD cs

def string? (cs : List Char) : Option (Option (String × List Char)) :=
  match cs with
  | '"' :: '"' :: '"' :: rest => some (basicLines (rest.length + 1) [] (skipFirstBreak rest))
  | '\'' :: '\'' :: '\'' :: rest => some (literalLines (rest.length + 1) [] (skipFirstBreak rest))
  | '"' :: rest => some (basic (rest.length + 1) [] rest)
  | '\'' :: rest => some (literal [] rest)
  | _ => none

def isKeyChar (c : Char) : Bool := c.isAlphanum || c == '-' || c == '_'

def simpleKey : Reader String
  | '"' :: rest => basic (rest.length + 1) [] rest
  | '\'' :: rest => literal [] rest
  | cs =>
    let word := cs.takeWhile isKeyChar
    if word.isEmpty then none else some (String.ofList word, cs.drop word.length)

def dottedKey : Nat → Reader (List String)
  | 0, _ => none
  | limit + 1, cs => do
    let (key, rest) ← simpleKey cs
    match skipBlanks rest with
    | '.' :: tail => do
      let (keys, rest) ← dottedKey limit (skipBlanks tail)
      return (key :: keys, rest)
    | rest => return ([key], rest)

def isGrouped (isDigit : Char → Bool) (cs : List Char) : Bool :=
  let rec go : Bool → List Char → Bool
    | digitBefore, [] => digitBefore
    | digitBefore, c :: rest =>
      if isDigit c then go true rest else c == '_' && digitBefore && go false rest
  go false cs

def withoutUnderscores (cs : List Char) : List Char := cs.filter (· != '_')

def inRange? (n : Int) : Option Int :=
  if -0x8000000000000000 ≤ n && n < 0x8000000000000000 then some n else none

def based? (base : Nat) (cs : List Char) : Option Int :=
  let isDigit (c : Char) : Bool := (hexDigit? c).any (· < base)
  if isGrouped isDigit cs then
    inRange? ((withoutUnderscores cs).foldl (fun n c => base * n + (hexDigit? c).getD 0) (0 : Nat))
  else none

def isWhole (cs : List Char) : Bool :=
  isGrouped Char.isDigit cs && (cs.length == 1 || cs.head? != some '0')

def isDigitOrUnderscore (c : Char) : Bool := c.isDigit || c == '_'

def decimalFloat? (negative : Bool) (cs : List Char) : Option Float :=
  let whole := cs.takeWhile isDigitOrUnderscore
  let rest := cs.drop whole.length
  let (fraction, rest) := match rest with
    | '.' :: tail =>
      let fraction := tail.takeWhile isDigitOrUnderscore
      (some fraction, tail.drop fraction.length)
    | _ => (none, rest)
  let exponent := match rest with
    | [] => some none
    | c :: tail => if c == 'e' || c == 'E' then some (some (Numeral.splitSign tail).2) else none
  match exponent with
  | none => none
  | some exponent =>
    if isWhole whole && (fraction.isSome || exponent.isSome) &&
        fraction.all (isGrouped Char.isDigit) && exponent.all (isGrouped Char.isDigit) then do
      let d ← Numeral.unsigned? (withoutUnderscores cs)
      let x := (Numeral.decimal negative d).toFloat
      if x == 1 / 0 then none else some x
    else none

def number? (cs : List Char) : Option Value :=
  match cs with
  | '0' :: 'x' :: digits => (based? 16 digits).map .integer
  | '0' :: 'o' :: digits => (based? 8 digits).map .integer
  | '0' :: 'b' :: digits => (based? 2 digits).map .integer
  | _ =>
    let (negative, rest) := Numeral.splitSign cs
    if rest == "inf".toList then some (.float (Numeral.infinity negative).toFloat)
    else if rest == "nan".toList then some (.float Numeral.nan.toFloat)
    else if isWhole rest then
      let n : Int := Numeral.digitsValue (withoutUnderscores rest)
      (inRange? (if negative then -n else n)).map .integer
    else (decimalFloat? negative rest).map .float

end Flexbox.Toml
