import Flexbox.Tree

namespace Flexbox

variable {α : Type} [Scalar α]

structure DumpOptions where
  layout : Bool := true
  style : Bool := true
  children : Bool := true

namespace Dump

def property (label value : String) : String := label ++ ": " ++ value ++ "; "

def keyword {κ : Type} [Keyword κ] [DecidableEq κ] (label : String) (value initial : κ) : String :=
  if value = initial then "" else property label (Keyword.word value)

def number (label : String) (value : Extent α) : String :=
  match value with
  | .known x => property label (Scalar.text x)
  | .undefined => ""

def length (label : String) (value : Length α) : String :=
  if value.isUndefined then "" else property label value.text

def lengthUnlessAuto (label : String) (value : Length α) : String :=
  if value.isAuto then "" else length label value

def lengthUnlessZero (label : String) (value : Length α) : String :=
  if value.magnitude.near (.of 0) then "" else length label value

def edges (label : String) (e : Edges (Length α)) : String :=
  if !e.left.isUndefined && e.left == e.left && e.top == e.left && e.right == e.left &&
      e.bottom == e.left then
    lengthUnlessZero label e.left
  else
    String.join ((Keyword.all : List Edge).map fun edge =>
      lengthUnlessZero (label ++ "-" ++ Keyword.word edge) (e.get edge))

def style (s : Style α) : String :=
  let initial : Style α := .initial
  String.join [
    keyword "flex-direction" s.flexDirection initial.flexDirection,
    keyword "justify-content" s.justifyContent initial.justifyContent,
    keyword "align-items" s.alignItems initial.alignItems,
    keyword "align-content" s.alignContent initial.alignContent,
    keyword "align-self" s.alignSelf initial.alignSelf,
    number "flex-grow" s.flexGrow,
    number "flex-shrink" s.flexShrink,
    lengthUnlessAuto "flex-basis" s.flexBasis,
    number "flex" s.flex,
    keyword "flex-wrap" s.flexWrap initial.flexWrap,
    keyword "overflow" s.overflow initial.overflow,
    keyword "display" s.display initial.display,
    edges "margin" s.margin,
    edges "padding" s.padding,
    edges "border" s.border,
    lengthUnlessAuto "width" s.size.width,
    lengthUnlessAuto "height" s.size.height,
    lengthUnlessAuto "max-width" s.maxSize.width,
    lengthUnlessAuto "max-height" s.maxSize.height,
    lengthUnlessAuto "min-width" s.minSize.width,
    lengthUnlessAuto "min-height" s.minSize.height,
    keyword "position" s.positionType initial.positionType,
    length "left" s.position.left,
    length "right" s.position.right,
    length "top" s.position.top,
    length "bottom" s.position.bottom]

def layout (g : Geometry α) : String :=
  "layout=\"width: " ++ g.size.width.text ++ "; height: " ++ g.size.height.text ++
    "; top: " ++ Scalar.text g.position.top ++ "; left: " ++ Scalar.text g.position.left ++ ";\" "

def opening (options : DumpOptions) (n : Node α) : String :=
  "<div " ++ n.note.getD "" ++
    (if options.layout then layout n.geometry else "") ++
    (if options.style then "style=\"" ++ style n.style ++ "\" " else "") ++
    (if n.measure.isSome then "has-custom-measure=\"true\"" else "") ++ ">"

def indent (level : Nat) : String := String.join (List.replicate level "  ")

def lines (t : Tree α) (options : DumpOptions) : Nat → Nat → NodeId → Except Fault String
  | 0, _, id => .error (.unknownNode id)
  | fuel + 1, level, id => do
    let some n := t.find? id | .error (.unknownNode id)
    let children ← if options.children then
        n.children.mapM fun child => do
          return "\n" ++ (← lines t options fuel (level + 1) child)
      else pure []
    let closing := if children.isEmpty then "" else "\n" ++ indent level
    return indent level ++ opening options n ++ String.join children ++ closing ++ "</div>"

end Dump

namespace Tree

def dump (t : Tree α) (id : NodeId) (options : DumpOptions) (spare : Nat := 0) :
    Except Fault String :=
  Dump.lines t options (t.slots.size + 1 + spare) 0 id

def log (t : Tree α) (config : Config α) (level : LogLevel) (hasNode : Bool) (message : String) :
    Tree α :=
  if config.logger then t.tell (.log level hasNode message) else t

end Tree

namespace Edit

def print (id : NodeId) (options : DumpOptions) : Edit α Unit := do
  match (← get).dump id options with
  | .error e => throw e
  | .ok text =>
    let n ← node id
    modify fun t => t.log n.config .debug true text

end Edit

end Flexbox
