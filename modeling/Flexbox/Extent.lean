import Flexbox.Scalar

namespace Flexbox

inductive Extent (α : Type)
  | undefined
  | known (value : α)
  deriving BEq, DecidableEq, Repr

namespace Extent

variable {α : Type}

def isDefined : Extent α → Bool
  | undefined => false
  | known _ => true

def isUndefined (e : Extent α) : Bool := !e.isDefined

def get? : Extent α → Option α
  | undefined => none
  | known x => some x

def getD (e : Extent α) (default : α) : α :=
  match e with
  | undefined => default
  | known x => x

def map (f : α → α) : Extent α → Extent α
  | undefined => undefined
  | known x => known (f x)

def zipWith (f : α → α → α) : Extent α → Extent α → Extent α
  | known a, known b => known (f a b)
  | _, _ => undefined

variable [Scalar α]

def of (x : α) : Extent α := if Scalar.isNaN x then undefined else known x

instance : Add (Extent α) := ⟨zipWith (· + ·)⟩
instance : Sub (Extent α) := ⟨zipWith (· - ·)⟩
instance : Neg (Extent α) := ⟨map (- ·)⟩

def max : Extent α → Extent α → Extent α
  | known a, known b => known (Scalar.max a b)
  | known a, undefined => known a
  | undefined, e => e

def min : Extent α → Extent α → Extent α
  | known a, known b => known (Scalar.min a b)
  | known a, undefined => known a
  | undefined, e => e

def compareNumber? (e : Extent α) (x : α) : Option Ordering :=
  match e with
  | undefined => none
  | known a =>
    if a < x then some .lt else if a == x then some .eq else if x < a then some .gt else none

def compare? : Extent α → Extent α → Option Ordering
  | a, known x => a.compareNumber? x
  | undefined, undefined => some .eq
  | known _, undefined => none

def lt (a b : Extent α) : Bool := a.compare? b == some .lt
def gt (a b : Extent α) : Bool := a.compare? b == some .gt
def le (a b : Extent α) : Bool := a.lt b || a.compare? b == some .eq
def ge (a b : Extent α) : Bool := a.gt b || a.compare? b == some .eq

def holds (e : Extent α) (p : α → Bool) : Bool :=
  match e with
  | undefined => false
  | known x => p x

def near : Extent α → Extent α → Bool
  | known a, known b => Scalar.near a b
  | undefined, undefined => true
  | _, _ => false

def text : Extent α → String
  | undefined => "undefined"
  | known x => Scalar.text x

end Extent

end Flexbox
