import Flexbox.Toml.Moment

namespace Flexbox.Toml

inductive Origin
  | header
  /-- By the header of a table inside it. -/
  | implied
  | dotted
  | inline
  deriving DecidableEq, Repr

inductive Value
  | string (text : String)
  | integer (value : Int)
  | float (value : Float)
  | boolean (value : Bool)
  | moment (value : Moment)
  | array (items : List Value)
  | table (origin : Origin) (entries : List (String × Value))
  /-- Tables of one header in double brackets. -/
  | tables (items : List (List (String × Value)))

abbrev Entries := List (String × Value)

namespace Entries

def find? (es : Entries) (key : String) : Option Value := es.lookup key

def update (es : Entries) (key : String) (v : Value) : Entries :=
  es.map fun (k, old) => (k, if k == key then v else old)

def assign (v : Value) : List String → Entries → Option Entries
  | [], _ => none
  | [key], es => match es.find? key with
    | none => some (es ++ [(key, v)])
    | some _ => none
  | key :: rest, es => match es.find? key with
    | none => (assign v rest []).map fun inner => es ++ [(key, .table .dotted inner)]
    | some (.table .dotted inner) =>
      (assign v rest inner).map fun inner => es.update key (.table .dotted inner)
    | some _ => none

def atHeader (f : Option Value → Option Value) : List String → Entries → Option Entries
  | [], _ => none
  | [key], es => match es.find? key with
    | none => (f none).map fun v => es ++ [(key, v)]
    | some old => (f (some old)).map fun v => es.update key v
  | key :: rest, es => match es.find? key with
    | none => (atHeader f rest []).map fun inner => es ++ [(key, .table .implied inner)]
    | some (.table .inline _) => none
    | some (.table origin inner) =>
      (atHeader f rest inner).map fun inner => es.update key (.table origin inner)
    | some (.tables items) => match items.getLast? with
      | none => none
      | some last => (atHeader f rest last).map fun inner =>
        es.update key (.tables (items.dropLast ++ [inner]))
    | some _ => none

def openTable : Option Value → Option Value
  | none => some (.table .header [])
  | some (.table .implied inner) => some (.table .header inner)
  | some _ => none

def openArray : Option Value → Option Value
  | none => some (.tables [[]])
  | some (.tables items) => some (.tables (items ++ [[]]))
  | some _ => none

def assignUnder (v : Value) (header keys : List String) (es : Entries) : Option Entries :=
  if header.isEmpty then es.assign v keys
  else es.atHeader (fun
    | some (.table .header inner) => (assign v keys inner).map (.table .header)
    | some (.tables items) => match items.getLast? with
      | none => none
      | some last => (assign v keys last).map fun inner => .tables (items.dropLast ++ [inner])
    | _ => none) header

end Entries

end Flexbox.Toml
