import Flexbox.Fixture.Document

namespace Flexbox.Fixture

inductive Place
  | keyword
  | name
  | content
  | property
  | key (key : Located String)
  | colon (key : Located String)
  /-- Behind a minus sign, which starts at a byte. -/
  | minus (key : Located String) (start : Nat)
  | number (key : Located String) (value : Float32) (span : Span)
  | value
  | block
  | body
  | closed

structure Unfinished where
  isText : Bool
  start : Nat
  /-- Where the last lexeme that belongs to it ends. -/
  stop : Nat
  name : Option (Located String)
  content : String
  properties : List (Located Property)
  children : List Declaration
  place : Place

namespace Unfinished

def ofKeyword (isText : Bool) (span : Span) : Unfinished :=
  ⟨isText, span.start, span.stop, none, "", [], [], .keyword⟩

def finish (d : Unfinished) : Declaration where
  kind := if d.isText then .text d.content else .container
  name := d.name
  properties := d.properties.reverse
  children := d.children.reverse
  span := ⟨d.start, d.stop⟩

def moveTo (d : Unfinished) (place : Place) (stop : Nat) : Unfinished :=
  { d with place := place, stop := stop }

def addProperty (d : Unfinished) (key : Located String) (value : PropertyValue) (span : Span) :
    Unfinished :=
  { d with
    properties := ⟨⟨key, ⟨value, span⟩⟩, ⟨key.span.start, span.stop⟩⟩ :: d.properties }

def addChild (d : Unfinished) (child : Declaration) : Unfinished :=
  { d with children := child :: d.children, stop := child.span.stop }

def canEnd (d : Unfinished) : Bool :=
  match d.place with
  | .keyword | .name => !d.isText
  | .content | .block | .closed => true
  | _ => false

def read? (d : Unfinished) (lexeme : Lexeme) : Option Unfinished :=
  let span := lexeme.span
  match d.place, lexeme.token with
  | .keyword, .ident name => some { d.moveTo .name span.stop with name := some ⟨name, span⟩ }
  | .keyword, .string content | .name, .string content =>
    if d.isText then some { d.moveTo .content span.stop with content := content } else none
  | .keyword, .bracketOpen | .name, .bracketOpen =>
    if d.isText then none else some (d.moveTo .property span.stop)
  | .content, .bracketOpen => some (d.moveTo .property span.stop)
  | .keyword, .braceOpen | .name, .braceOpen | .block, .braceOpen =>
    if d.isText then none else some (d.moveTo .body span.stop)
  | .property, .ident name => some (d.moveTo (.key ⟨name, span⟩) span.stop)
  | .property, .bracketClose => some (d.moveTo .block span.stop)
  | .key key, .colon => some (d.moveTo (.colon key) span.stop)
  | .colon key, .minus => some (d.moveTo (.minus key span.start) span.stop)
  | .colon key, .number x => some (d.moveTo (.number key x span) span.stop)
  | .colon key, .ident word =>
    some ((d.addProperty key (.keyword word) span).moveTo .value span.stop)
  | .colon key, .text =>
    some ((d.addProperty key (.keyword "text") span).moveTo .value span.stop)
  | .minus key start, .number x => some (d.moveTo (.number key (-x) ⟨start, span.stop⟩) span.stop)
  | .number key x numberSpan, .percent =>
    some ((d.addProperty key (.percent x) ⟨numberSpan.start, span.stop⟩).moveTo .value span.stop)
  | .number key x numberSpan, .comma =>
    some ((d.addProperty key (.number x) numberSpan).moveTo .property span.stop)
  | .number key x numberSpan, .bracketClose =>
    some ((d.addProperty key (.number x) numberSpan).moveTo .block span.stop)
  | .value, .comma => some (d.moveTo .property span.stop)
  | .value, .bracketClose => some (d.moveTo .block span.stop)
  | .body, .braceClose => some (d.moveTo .closed span.stop)
  | _, _ => none

end Unfinished

inductive Reading
  | nothing
  | inside (current : Unfinished) (enclosing : List Unfinished)

inductive Expected
  | token (token : Token)
  | propertyValue
  | endOfInput

def Expected.describe : Expected → String
  | token t => t.describe
  | propertyValue => "property value"
  | endOfInput => "end of input"

namespace Reading

def opening? (lexeme : Lexeme) : Option Unfinished :=
  match lexeme.token with
  | .node => some (.ofKeyword false lexeme.span)
  | .text => some (.ofKeyword true lexeme.span)
  | _ => none

def readBetween? (container : Unfinished) (enclosing : List Unfinished) (lexeme : Lexeme) :
    Option Reading :=
  match opening? lexeme with
  | some d => some (.inside d (container :: enclosing))
  | none => (container.read? lexeme).map (.inside · enclosing)

def read? (r : Reading) (lexeme : Lexeme) : Option Reading :=
  match r with
  | nothing => (opening? lexeme).map (.inside · [])
  | inside current enclosing =>
    match current.place with
    | .body => readBetween? current enclosing lexeme
    | _ =>
      match current.read? lexeme, enclosing with
      | some current, _ => some (.inside current enclosing)
      | none, container :: outer =>
        if current.canEnd then readBetween? (container.addChild current.finish) outer lexeme
        else none
      | none, [] => none

def finish? : Reading → Option Declaration
  | inside current [] => if current.canEnd then some current.finish else none
  | _ => none

def following (enclosing : List Unfinished) : List Expected :=
  if enclosing.isEmpty then [.endOfInput]
  else [.token .node, .token .text, .token .braceClose]

def expected : Reading → List Expected
  | nothing => [.token .node, .token .text]
  | inside current enclosing =>
    let follow := following enclosing
    match current.place with
    | .keyword | .name =>
      if current.isText then [] else .token .bracketOpen :: .token .braceOpen :: follow
    | .content => .token .bracketOpen :: follow
    | .property => [.token .bracketClose]
    | .key _ => [.token .colon]
    | .colon _ => [.propertyValue]
    | .minus _ _ => []
    | .number _ _ _ => [.token .percent, .token .comma, .token .bracketClose]
    | .value => [.token .comma, .token .bracketClose]
    | .block => if current.isText then follow else .token .braceOpen :: follow
    | .body => [.token .node, .token .text, .token .braceClose]
    | .closed => follow

end Reading

structure SyntaxError where
  span : Span
  /-- What stood there; nothing at the end. -/
  found : Option Token
  expected : List Expected

namespace SyntaxError

def message (e : SyntaxError) : String :=
  "Unexpected " ++ match e.found with
    | some token => token.describe
    | none => "end of input"

def display (e : SyntaxError) : String :=
  "Parse error at " ++ toString e.span.start ++ ".." ++ toString e.span.stop ++ ": " ++ e.message

def expectedNames (e : SyntaxError) : List String :=
  ((e.expected.map Expected.describe).mergeSort fun a b => decide (a ≤ b)).eraseDups

end SyntaxError

/-- Reads lexemes up to the end of a source of `length` bytes. The last lexeme read ended at
`stop`: a missing rest is reported as the span from the end of the source back to there. -/
def readAll (length : Nat) : Nat → Reading → List Lexeme → Except SyntaxError Declaration
  | stop, r, [] =>
    match r.finish? with
    | some d => .ok d
    | none => .error ⟨⟨length, stop⟩, none, r.expected⟩
  | _, r, lexeme :: rest =>
    match r.read? lexeme with
    | some r => readAll length lexeme.span.stop r rest
    | none => .error ⟨lexeme.span, some lexeme.token, r.expected⟩

def parse (source : String) : Except SyntaxError Declaration :=
  readAll source.utf8ByteSize source.utf8ByteSize .nothing (lex source)

end Flexbox.Fixture
