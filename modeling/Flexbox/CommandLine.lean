import Flexbox.Run

namespace Flexbox.CommandLine

inductive Switch
  | tree
  | grammar
  /-- May be repeated. Nothing is logged, so it changes nothing. -/
  | verbose
  | help
  deriving DecidableEq, Repr

inductive Parameter
  | settings
  | width
  | height
  | direction
  deriving DecidableEq, Repr

inductive Flag
  | switch (s : Switch)
  | parameter (p : Parameter)
  deriving DecidableEq, Repr

namespace Flag

def short? : Char → Option Flag
  | 's' => some (.parameter .settings)
  | 'W' => some (.parameter .width)
  | 'H' => some (.parameter .height)
  | 'd' => some (.parameter .direction)
  | 't' => some (.switch .tree)
  | 'g' => some (.switch .grammar)
  | 'v' => some (.switch .verbose)
  | 'h' => some (.switch .help)
  | _ => none

def long? : String → Option Flag
  | "settings" => some (.parameter .settings)
  | "width" => some (.parameter .width)
  | "height" => some (.parameter .height)
  | "direction" => some (.parameter .direction)
  | "tree" => some (.switch .tree)
  | "grammar" => some (.switch .grammar)
  | "verbose" => some (.switch .verbose)
  | "help" => some (.switch .help)
  | _ => none

end Flag

structure Options where
  /-- The fixture is read from the standard input unless a file is named. -/
  input : Option String := none
  settings : Option String := none
  width : Option Float32 := none
  height : Option Float32 := none
  direction : Option Direction := none
  tree : Bool := false
  grammar : Bool := false

inductive ArgumentError
  | unexpected (argument : String)
  | repeated (argument : String)
  | missingValue (argument : String)
  | invalidValue (value argument : String)
  deriving DecidableEq, Repr

def ArgumentError.message : ArgumentError → String
  | unexpected argument => "unexpected argument '" ++ argument ++ "' found"
  | repeated argument => "the argument '" ++ argument ++ "' cannot be used multiple times"
  | missingValue argument => "a value is required for '" ++ argument ++ "' but none was supplied"
  | invalidValue value argument => "invalid value '" ++ value ++ "' for '" ++ argument ++ "'"

inductive Stop
  | help
  | refused (error : ArgumentError)

namespace Options

def number? (text : String) : Option Float32 := (Numeral.ofText? text).map Numeral.toFloat32

def assign (o : Options) (p : Parameter) (argument value : String) : Except Stop Options :=
  let once {β : Type} (old new : Option β) (store : β → Options) : Except Stop Options :=
    match old, new with
    | some _, _ => .error (.refused (.repeated argument))
    | none, some x => .ok (store x)
    | none, none => .error (.refused (.invalidValue value argument))
  let path := if value.isEmpty then none else some value
  match p with
  | .settings => once o.settings path fun x => { o with settings := some x }
  | .width => once o.width (number? value) fun x => { o with width := some x }
  | .height => once o.height (number? value) fun x => { o with height := some x }
  | .direction => once o.direction (Keyword.ofWord? value) fun x => { o with direction := some x }

def switchOn (o : Options) (s : Switch) (argument : String) : Except Stop Options :=
  match s with
  | .tree => if o.tree then .error (.refused (.repeated argument)) else .ok { o with tree := true }
  | .grammar =>
    if o.grammar then .error (.refused (.repeated argument)) else .ok { o with grammar := true }
  | .verbose => .ok o
  | .help => .error .help

def setInput (o : Options) (argument : String) : Except Stop Options :=
  if o.input.isSome then .error (.refused (.unexpected argument))
  else if argument.isEmpty then .error (.refused (.invalidValue argument "[INPUT]"))
  else .ok { o with input := some argument }

def readCluster (o : Options) : List Char → Except Stop (Options × Option (Parameter × String))
  | [] => .ok (o, none)
  | c :: rest =>
    let argument := String.ofList ['-', c]
    match Flag.short? c, rest with
    | none, _ => .error (.refused (.unexpected argument))
    | some (.switch s), _ => do (← o.switchOn s argument).readCluster rest
    | some (.parameter p), [] => .ok (o, some (p, argument))
    | some (.parameter p), '=' :: value => do
      return (← o.assign p argument (String.ofList value), none)
    | some (.parameter p), value => do
      return (← o.assign p argument (String.ofList value), none)

def readLong (o : Options) (body : List Char) :
    Except Stop (Options × Option (Parameter × String)) :=
  let name := String.ofList (body.takeWhile (· != '='))
  let argument := "--" ++ name
  match Flag.long? name, body.drop name.length with
  | none, _ => .error (.refused (.unexpected argument))
  | some (.switch s), [] => do return (← o.switchOn s argument, none)
  | some (.switch _), _ => .error (.refused (.unexpected (String.ofList ('-' :: '-' :: body))))
  | some (.parameter p), [] => .ok (o, some (p, argument))
  | some (.parameter p), _ :: value => do
    return (← o.assign p argument (String.ofList value), none)

def read (o : Options) (waiting : Option (Parameter × String)) : List String → Except Stop Options
  | [] => match waiting with
    | none => .ok o
    | some (_, argument) => .error (.refused (.missingValue argument))
  | argument :: rest =>
    match argument.toList, waiting with
    | '-' :: _ :: _, some (_, waitingArgument) => .error (.refused (.missingValue waitingArgument))
    | ['-', '-'], none => rest.foldlM setInput o
    | '-' :: '-' :: body, none => do
      let (o, waiting) ← o.readLong body
      o.read waiting rest
    | '-' :: c :: cluster, none => do
      let (o, waiting) ← o.readCluster (c :: cluster)
      o.read waiting rest
    | _, some (p, waitingArgument) => do (← o.assign p waitingArgument argument).read none rest
    | _, none => do (← o.setInput argument).read none rest

end Options

def intro : String :=
"Flex Layout - compute flexbox layouts for node tree fixtures

USAGE:
    flex-layout [OPTIONS] [FILE]
    echo '<fixture>' | flex-layout

OPTIONS:
    -s, --settings     Engine and viewport settings (TOML file)
    -W, --width        Owner width for the root
    -H, --height       Owner height for the root
    -d, --direction    Owner direction (ltr, rtl, inherit)
    -t, --tree         Print the pseudo-HTML tree dump
    -g, --grammar      Show fixture language reference
    -v, --verbose      Log layout passes
    -h, --help         Print help

QUICK START:
    echo 'node root [flex-direction: row] \x7b node a [flex-grow: 1] node b [width: 30] \x7d' \\
        | flex-layout -W 100 -H 40

This lays out two children in a row and prints each named node's box.
Run --grammar for the fixture syntax.
"

def grammar : String :=
"FLEX LAYOUT FIXTURES
====================

NODES
-----
node [name] [properties] \x7b children \x7d   Container; children are optional
text [name] \"content\" [properties]      Leaf measured as monospace text
                                        (10 points per character, 10 per line)

A fixture has exactly one root node.

PROPERTIES
----------
Properties go in brackets after the name:
    node card [width: 50%, padding: 8, flex-direction: row]

Keywords:
    direction         inherit | ltr | rtl
    flex-direction    column | column-reverse | row | row-reverse
    justify-content   flex-start | center | flex-end | space-between |
                      space-around | space-evenly
    align-items       auto | flex-start | center | flex-end | stretch |
    align-self        baseline | space-between | space-around
    align-content
    flex-wrap         no-wrap | wrap | wrap-reverse
    overflow          visible | hidden | scroll
    display           flex | none
    position          relative | absolute

Numbers:
    flex, flex-grow, flex-shrink, aspect-ratio

Lengths (points, percentages, auto where allowed):
    width, height, flex-basis          <n> | <n>% | auto
    min-width, min-height,             <n> | <n>%
    max-width, max-height
    margin[-edge]                      <n> | <n>% | auto
    padding[-edge]                     <n> | <n>%
    border[-edge]                      <n>
    left, top, right, bottom,          <n> | <n>%
    start, end

Edges: left, top, right, bottom, start, end, horizontal, vertical, all

Flags:
    reference-baseline                 true | false

COMMENTS
--------
// line comment
/* block comment */
"

def usage : String := "Usage: flex-layout [OPTIONS] [INPUT]"

def help : String :=
"Compute flexbox layouts for node tree fixtures

" ++ usage ++ "

Arguments:
  [INPUT]  Input file (reads from stdin if not provided)

Options:
  -s, --settings <SETTINGS>    Engine and viewport settings (TOML format)
  -W, --width <WIDTH>          Owner width for the root; overrides the settings file
  -H, --height <HEIGHT>        Owner height for the root; overrides the settings file
  -d, --direction <DIRECTION>  Owner direction; overrides the settings file
  -t, --tree                   Print the pseudo-HTML tree dump instead of a table
  -g, --grammar                Show fixture language reference
  -v, --verbose...             Log layout passes; repeat for solver traces
  -h, --help                   Print help
"

structure Outcome where
  code : Nat
  output : String
  errors : String

namespace Outcome

def success (output : String) : Outcome := ⟨0, output, ""⟩

def failure (errors : String) : Outcome := ⟨1, "", errors ++ "\n"⟩

def stopped : Stop → Outcome
  | .help => success help
  | .refused e =>
    ⟨2, "", "error: " ++ e.message ++ "\n\n" ++ usage ++
      "\n\nFor more information, try '--help'.\n"⟩

end Outcome

structure Inputs (m : Type → Type) where
  file : String → m (Except String String)
  standard : m (Except String String)
  /-- Somebody types at the standard input. -/
  isInteractive : m Bool

namespace Options

def override (o : Options) (s : Settings) : Settings :=
  { s with
    width := o.width <|> s.width
    height := o.height <|> s.height
    direction := o.direction.getD s.direction }

def format (o : Options) : Format := if o.tree then .tree else .table

def layOutText (o : Options) (settings : Settings) (name source : String) : Outcome :=
  match run source (o.override settings) o.format with
  | .ok text => .success (if o.tree then text ++ "\n" else text)
  | .error e => .failure ((e.report source).text name)

def loadSettings {m : Type → Type} [Monad m] (o : Options) (inputs : Inputs m) :
    m (Except String Settings) := do
  match o.settings with
  | none => return .ok .initial
  | some path =>
    let failed (reason : String) : Except String Settings :=
      .error ("Error loading settings '" ++ path ++ "': " ++ reason)
    match ← inputs.file path with
    | .error reason => return failed ("Failed to read settings file: " ++ reason)
    | .ok text => match Settings.ofToml text with
      | .ok s => return .ok s
      | .error e => return failed e.message

def execute {m : Type → Type} [Monad m] (o : Options) (inputs : Inputs m) : m Outcome := do
  if o.grammar then return .success CommandLine.grammar
  if o.input.isNone && (← inputs.isInteractive) then return .success intro
  match ← o.loadSettings inputs with
  | .error message => return .failure message
  | .ok settings => match o.input with
    | some path => match ← inputs.file path with
      | .error reason => return .failure ("Error reading file '" ++ path ++ "': " ++ reason)
      | .ok source => return o.layOutText settings path source
    | none => match ← inputs.standard with
      | .error reason => return .failure ("Error reading from stdin: " ++ reason)
      | .ok source => return o.layOutText settings "<stdin>" source

end Options

def call {m : Type → Type} [Monad m] (arguments : List String) (inputs : Inputs m) : m Outcome :=
  match ({} : Options).read none arguments with
  | .error stop => pure (.stopped stop)
  | .ok o => o.execute inputs

end Flexbox.CommandLine
