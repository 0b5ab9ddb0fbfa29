import Flexbox.Settings
import Flexbox.Fixture.Build

namespace Flexbox

open Fixture

inductive RunError
  | parse (error : SyntaxError)
  | build (error : BuildError)
  | settings (error : SettingsError)
  | layout (fault : Fault)

namespace RunError

def message : RunError → String
  | parse e => "parse errors: " ++ e.display
  | build e => "build error: " ++ e.message
  | settings e => "settings error: " ++ e.message
  | layout fault => "layout error: " ++ fault.message

end RunError

inductive Format
  | table
  | tree
  deriving DecidableEq, Repr

structure LaidOut where
  tree : Tree Float32
  root : NodeId
  names : List (String × NodeId)
  stats : Stats

def layOut (source : String) (settings : Settings) : Except RunError LaidOut := do
  let document ← (Fixture.parse source).mapError .parse
  let config ← settings.config.mapError .settings
  let built ← (build document config).mapError .build
  match (Edit.calculateLayout built.root settings.viewport).apply built.tree with
  | (.ok stats, tree) => return ⟨tree, built.root, built.names, stats⟩
  | (.error fault, _) => throw (.layout fault)

namespace LaidOut

def row (name : String) (g : Geometry Float32) : String :=
  name ++ ": left " ++ Scalar.text (g.position.left) ++ ", top " ++ Scalar.text (g.position.top) ++
    ", width " ++ (g.size.get .width).text ++ ", height " ++ (g.size.get .height).text ++ "\n"

def table (l : LaidOut) : Except Fault String := do
  let rows ← l.names.mapM fun (name, id) => match l.tree.find? id with
    | some n => pure (row name n.geometry)
    | none => throw (.unknownNode id)
  return String.join rows

def text (l : LaidOut) : Format → Except RunError String
  | .table => l.table.mapError .layout
  | .tree => (l.tree.dump l.root {}).mapError .layout

end LaidOut

def run (source : String) (settings : Settings) (format : Format) : Except RunError String := do
  (← layOut source settings).text format

def endsLine (c : Char) : Bool :=
  ['\n', '\r', '\x0b', '\x0c', '\u0085', '\u2028', '\u2029'].contains c

def lineLengths : List Char → Nat → List Nat
  | [], 0 => []
  | [], n => [n]
  | '\r' :: '\n' :: rest, n => (n + 2) :: lineLengths rest 0
  | c :: rest, n => if endsLine c then (n + 1) :: lineLengths rest 0 else lineLengths rest (n + 1)

def position? : List Nat → Nat → Nat → Option (Nat × Nat)
  | [], _, _ => none
  | [length], line, offset => if offset ≤ length then some (line, offset + 1) else none
  | length :: rest, line, offset =>
    if offset < length then some (line, offset + 1) else position? rest (line + 1) (offset - length)

def place? (source : String) (span : Span) : Option (Nat × Nat) := do
  let lengths := lineLengths source.toList 0
  let place ← position? lengths 1 span.start
  let _ ← position? lengths 1 (max span.start (span.stop - 1))
  return place

structure Report where
  headline : String
  place : Option (Nat × Nat)

def Report.placeText? (r : Report) (filename : String) : Option String :=
  r.place.map fun (line, column) =>
    "[" ++ filename ++ ":" ++ toString line ++ ":" ++ toString column ++ "]"

def Report.text (r : Report) (filename : String) : String :=
  match r.placeText? filename with
  | none => r.headline
  | some place => r.headline ++ "\n  " ++ place

namespace RunError

def report (e : RunError) (source : String) : Report :=
  let pointing (message : String) (span : Span) : Report :=
    ⟨"Error: " ++ message, place? source span⟩
  match e with
  | parse s => pointing s.message s.span
  | build b => match b.span? with
    | some span => pointing b.message span
    | none => ⟨b.message, none⟩
  | other => ⟨other.message, none⟩

end RunError

end Flexbox
