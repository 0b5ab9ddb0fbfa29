import Flexbox.Toml.Moment.Reading

namespace Flexbox.Toml

def depthLimit : Nat := 79

def comment? : List Char → Option (List Char)
  | '#' :: rest =>
    let tail := rest.dropWhile isPlain
    if tail.isEmpty || (lineBreak? tail).isSome then some tail else none
  | cs => some cs

def skipFiller : Nat → List Char → Option (List Char)
  | 0, cs => some cs
  | fuel + 1, cs =>
    match skipBlanks cs with
    | '#' :: rest => do skipFiller fuel (← comment? ('#' :: rest))
    | rest => match lineBreak? rest with
      | some rest => skipFiller fuel rest
      | none => some rest

def isAtom (c : Char) : Bool := c.isAlphanum || ['+', '-', '_', '.', ':'].contains c

def word : Reader Value := fun cs =>
  let word := cs.takeWhile isAtom
  let rest := cs.drop word.length
  match String.ofList word with
  | "true" => some (.boolean true, rest)
  | "false" => some (.boolean false, rest)
  | _ => (number? word).map fun v => (v, rest)

def atom : Reader Value := fun cs =>
  match string? cs with
  | some read => read.map fun (text, rest) => (.string text, rest)
  | none => match moment cs with
    | some (m, rest) => some (.moment m, rest)
    | none => word cs

def arrayItems (value : Reader Value) : Nat → List Value → Reader (List Value)
  | 0, _, _ => none
  | fuel + 1, seen, cs => do
    let cs ← skipFiller (cs.length + 1) cs
    match cs with
    | ']' :: rest => return (seen.reverse, rest)
    | _ =>
      let (v, rest) ← value cs
      match ← skipFiller (rest.length + 1) rest with
      | ',' :: rest => arrayItems value fuel (v :: seen) rest
      | ']' :: rest => return ((v :: seen).reverse, rest)
      | _ => none

def assignment (value : Reader Value) : Reader (List String × Value) := fun cs => do
  let (keys, rest) ← dottedKey depthLimit cs
  match skipBlanks rest with
  | '=' :: rest => do
    let (v, rest) ← value (skipBlanks rest)
    return ((keys, v), rest)
  | _ => none

def inlineEntries (value : Reader Value) : Nat → Entries → Reader Entries
  | 0, _, _ => none
  | fuel + 1, es, cs => do
    let ((keys, v), rest) ← assignment value (skipBlanks cs)
    let es ← es.assign v keys
    match skipBlanks rest with
    | ',' :: rest => inlineEntries value fuel es rest
    | '\x7d' :: rest => return (es, rest)
    | _ => none

def value : Nat → Reader Value
  | 0, cs => atom cs
  | depth + 1, cs =>
    match cs with
    | '[' :: rest => do
      let (items, rest) ← arrayItems (value depth) (rest.length + 1) [] rest
      return (.array items, rest)
    | '\x7b' :: rest => match skipBlanks rest with
      | '\x7d' :: rest => some (.table .inline [], rest)
      | rest => do
        let (es, rest) ← inlineEntries (value depth) (rest.length + 1) [] rest
        return (.table .inline es, rest)
    | _ => atom cs

def endOfLine (cs : List Char) : Option (List Char) := do
  match ← comment? (skipBlanks cs) with
  | [] => some []
  | rest => lineBreak? rest

def header (cs : List Char) : Option ((Bool × List String) × List Char) :=
  match cs with
  | '[' :: rest => do
    let (keys, rest) ← dottedKey depthLimit (skipBlanks rest)
    match skipBlanks rest with
    | ']' :: ']' :: rest => return ((true, keys), rest)
    | _ => none
  | _ => do
    let (keys, rest) ← dottedKey depthLimit (skipBlanks cs)
    match skipBlanks rest with
    | ']' :: rest => return ((false, keys), rest)
    | _ => none

def lines : Nat → List String → Entries → List Char → Option Entries
  | 0, _, _, _ => none
  | fuel + 1, inForce, root, cs =>
    match skipBlanks cs with
    | [] => some root
    | '[' :: rest => do
      let ((isArray, keys), rest) ← header rest
      let root ← root.atHeader (if isArray then Entries.openArray else Entries.openTable) keys
      lines fuel keys root (← endOfLine rest)
    | cs => match endOfLine cs with
      | some rest => lines fuel inForce root rest
      | none => do
        let ((keys, v), rest) ← assignment (value depthLimit) cs
        let root ← root.assignUnder v inForce keys
        lines fuel inForce root (← endOfLine rest)

def parse? (text : String) : Option Entries :=
  let cs := match text.toList with
    | '\ufeff' :: rest => rest
    | cs => cs
  lines (cs.length + 1) [] [] cs

end Flexbox.Toml
