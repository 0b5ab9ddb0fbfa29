namespace Flexbox

class Keyword (κ : Type) where
  /-- What a member is, as named in messages. -/
  kind : String
  all : List κ
  word : κ → String

structure UnknownKeyword where
  kind : String
  word : String
  deriving DecidableEq, Repr

def UnknownKeyword.message (e : UnknownKeyword) : String :=
  "unknown " ++ e.kind ++ " '" ++ e.word ++ "'"

namespace Keyword

variable {κ : Type} [Keyword κ]

def ofWord? (word : String) : Option κ :=
  (all : List κ).find? fun k => Keyword.word k == word

def ofWord (word : String) : Except UnknownKeyword κ :=
  match ofWord? word with
  | some k => .ok k
  | none => .error ⟨kind κ, word⟩

def index [BEq κ] (k : κ) : Nat :=
  (all : List κ).idxOf k

end Keyword

inductive Direction
  | inherit
  | ltr
  | rtl
  deriving DecidableEq, Repr

inductive FlexDirection
  | column
  | columnReverse
  | row
  | rowReverse
  deriving DecidableEq, Repr

inductive Justify
  | flexStart
  | center
  | flexEnd
  | spaceBetween
  | spaceAround
  | spaceEvenly
  deriving DecidableEq, Repr

inductive Align
  | auto
  | flexStart
  | center
  | flexEnd
  | stretch
  | baseline
  | spaceBetween
  | spaceAround
  deriving DecidableEq, Repr

inductive PositionType
  | relative
  | absolute
  deriving DecidableEq, Repr

inductive Wrap
  | noWrap
  | wrap
  | wrapReverse
  deriving DecidableEq, Repr

inductive Overflow
  | visible
  | hidden
  | scroll
  deriving DecidableEq, Repr

inductive Display
  | flex
  | none
  deriving DecidableEq, Repr

inductive MeasureMode
  | undefined
  | exactly
  | atMost
  deriving DecidableEq, Repr

inductive NodeType
  | default
  | text
  deriving DecidableEq, Repr

inductive LogLevel
  | error
  | warn
  | info
  | debug
  | verbose
  | fatal
  deriving DecidableEq, Repr

inductive Feature
  /-- A child's flex basis is computed every time its owner lays it out. -/
  | webFlexBasis
  deriving DecidableEq, Repr

inductive Edge
  | left
  | top
  | right
  | bottom
  | start
  | finish
  | horizontal
  | vertical
  | all
  deriving DecidableEq, Repr

inductive Dimension
  | width
  | height
  deriving DecidableEq, Repr

instance : Keyword Direction where
  kind := "direction"
  all := [.inherit, .ltr, .rtl]
  word
    | .inherit => "inherit"
    | .ltr => "ltr"
    | .rtl => "rtl"

instance : Keyword FlexDirection where
  kind := "flex direction"
  all := [.column, .columnReverse, .row, .rowReverse]
  word
    | .column => "column"
    | .columnReverse => "column-reverse"
    | .row => "row"
    | .rowReverse => "row-reverse"

instance : Keyword Justify where
  kind := "justify value"
  all := [.flexStart, .center, .flexEnd, .spaceBetween, .spaceAround, .spaceEvenly]
  word
    | .flexStart => "flex-start"
    | .center => "center"
    | .flexEnd => "flex-end"
    | .spaceBetween => "space-between"
    | .spaceAround => "space-around"
    | .spaceEvenly => "space-evenly"

instance : Keyword Align where
  kind := "align value"
  all := [.auto, .flexStart, .center, .flexEnd, .stretch, .baseline, .spaceBetween, .spaceAround]
  word
    | .auto => "auto"
    | .flexStart => "flex-start"
    | .center => "center"
    | .flexEnd => "flex-end"
    | .stretch => "stretch"
    | .baseline => "baseline"
    | .spaceBetween => "space-between"
    | .spaceAround => "space-around"

instance : Keyword PositionType where
  kind := "position type"
  all := [.relative, .absolute]
  word
    | .relative => "relative"
    | .absolute => "absolute"

instance : Keyword Wrap where
  kind := "wrap mode"
  all := [.noWrap, .wrap, .wrapReverse]
  word
    | .noWrap => "no-wrap"
    | .wrap => "wrap"
    | .wrapReverse => "wrap-reverse"

instance : Keyword Overflow where
  kind := "overflow mode"
  all := [.visible, .hidden, .scroll]
  word
    | .visible => "visible"
    | .hidden => "hidden"
    | .scroll => "scroll"

instance : Keyword Display where
  kind := "display mode"
  all := [.flex, .none]
  word
    | .flex => "flex"
    | .none => "none"

instance : Keyword MeasureMode where
  kind := "measure mode"
  all := [.undefined, .exactly, .atMost]
  word
    | .undefined => "undefined"
    | .exactly => "exactly"
    | .atMost => "at-most"

instance : Keyword NodeType where
  kind := "node type"
  all := [.default, .text]
  word
    | .default => "default"
    | .text => "text"

instance : Keyword LogLevel where
  kind := "log level"
  all := [.error, .warn, .info, .debug, .verbose, .fatal]
  word
    | .error => "error"
    | .warn => "warn"
    | .info => "info"
    | .debug => "debug"
    | .verbose => "verbose"
    | .fatal => "fatal"

instance : Keyword Feature where
  kind := "experimental feature"
  all := [.webFlexBasis]
  word
    | .webFlexBasis => "web-flex-basis"

instance : Keyword Edge where
  kind := "edge"
  all := [.left, .top, .right, .bottom, .start, .finish, .horizontal, .vertical, .all]
  word
    | .left => "left"
    | .top => "top"
    | .right => "right"
    | .bottom => "bottom"
    | .start => "start"
    | .finish => "end"
    | .horizontal => "horizontal"
    | .vertical => "vertical"
    | .all => "all"

instance : Keyword Dimension where
  kind := "dimension"
  all := [.width, .height]
  word
    | .width => "width"
    | .height => "height"

end Flexbox
