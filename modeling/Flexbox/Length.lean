import Flexbox.Extent
import Flexbox.Axis

namespace Flexbox

inductive Length (α : Type)
  | undefined
  | points (value : α)
  | percent (value : α)
  | auto
  deriving BEq, DecidableEq, Repr

namespace Length

variable {α : Type}

def isUndefined : Length α → Bool
  | undefined => true
  | _ => false

def isAuto : Length α → Bool
  | auto => true
  | _ => false

def orElse (a b : Length α) : Length α := if a.isUndefined then b else a

variable [Scalar α]

def zero : Length α := points 0

def ofPoints (x : α) : Length α := if Scalar.isNaN x then undefined else points x

def ofPercent (x : α) : Length α := if Scalar.isNaN x then undefined else percent x

def magnitude : Length α → Extent α
  | points x | percent x => .of x
  | undefined | auto => .undefined

def resolve (l : Length α) (reference : Extent α) : Extent α :=
  match l with
  | undefined | auto => .undefined
  | points x => .of x
  | percent x => reference.map fun r => x * r * Scalar.ofDecimal 1 2

def resolveMargin (l : Length α) (reference : Extent α) : Extent α :=
  if l.isAuto then .of 0 else l.resolve reference

def text : Length α → String
  | undefined => "undefined"
  | points x => Scalar.text x ++ "px"
  | percent x => Scalar.text x ++ "%"
  | auto => "auto"

end Length

structure Edges (β : Type) where
  left : β
  top : β
  right : β
  bottom : β
  start : β
  finish : β
  horizontal : β
  vertical : β
  all : β
  deriving BEq, DecidableEq, Repr

namespace Edges

variable {β : Type}

def const (b : β) : Edges β := ⟨b, b, b, b, b, b, b, b, b⟩

def get (e : Edges β) : Edge → β
  | .left => e.left
  | .top => e.top
  | .right => e.right
  | .bottom => e.bottom
  | .start => e.start
  | .finish => e.finish
  | .horizontal => e.horizontal
  | .vertical => e.vertical
  | .all => e.all

def set (e : Edges β) (edge : Edge) (b : β) : Edges β :=
  match edge with
  | .left => { e with left := b }
  | .top => { e with top := b }
  | .right => { e with right := b }
  | .bottom => { e with bottom := b }
  | .start => { e with start := b }
  | .finish => { e with finish := b }
  | .horizontal => { e with horizontal := b }
  | .vertical => { e with vertical := b }
  | .all => { e with all := b }

end Edges

def Edge.shorthand? : Edge → Option Edge
  | .top | .bottom => some .vertical
  | .left | .right | .start | .finish => some .horizontal
  | .horizontal | .vertical | .all => none

def Edge.isLogical : Edge → Bool
  | .start | .finish => true
  | _ => false

/-- The length in force on an edge: its own, else that of its shorthand, else that of `all`,
else `default`. Edges that follow the writing direction never take the default, so that a caller
can tell whether one of them is set. -/
def Edges.cascade {α : Type} (e : Edges (Length α)) (edge : Edge) (default : Length α) :
    Length α :=
  let covering := match edge.shorthand? with
    | some s => (e.get s).orElse e.all
    | none => e.all
  (e.get edge).orElse (covering.orElse (if edge.isLogical then .undefined else default))

end Flexbox
