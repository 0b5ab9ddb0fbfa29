import Flexbox.Fixture.Document
import Flexbox.Style

namespace Flexbox.Fixture

inductive Wanted
  | oneOf (kind : String)
  | keyword
  | number
  | flag
  | length
  | lengthOrAuto
  deriving DecidableEq, Repr

def Wanted.text : Wanted → String
  | oneOf kind => "a " ++ kind
  | keyword => "a keyword"
  | number => "a number"
  | flag => "true or false"
  | length => "a length or a percentage"
  | lengthOrAuto => "a length, a percentage or auto"

inductive PropertyError
  | unknownProperty (name : String) (span : Span)
  | invalidValue (property value : String) (wanted : Wanted) (span : Span)
  deriving DecidableEq, Repr

namespace PropertyError

def message : PropertyError → String
  | unknownProperty name _ => "unknown property '" ++ name ++ "'"
  | invalidValue property value wanted _ =>
    "invalid value '" ++ value ++ "' for '" ++ property ++ "': expected " ++ wanted.text

def span : PropertyError → Span
  | unknownProperty _ span => span
  | invalidValue _ _ _ span => span

end PropertyError

namespace Property

variable (p : Property)

def unknown : PropertyError := .unknownProperty p.key.item p.key.span

def invalid (wanted : Wanted) : PropertyError :=
  .invalidValue p.key.item p.value.item.text wanted p.value.span

def keyword {κ : Type} [Keyword κ] : Except PropertyError κ :=
  match p.value.item with
  | .keyword word => match Keyword.ofWord word with
    | .ok k => .ok k
    | .error e => .error (p.invalid (.oneOf e.kind))
  | _ => .error (p.invalid .keyword)

def number : Except PropertyError Float32 :=
  match p.value.item with
  | .number x => .ok x
  | _ => .error (p.invalid .number)

def flag : Except PropertyError Bool :=
  match p.value.item with
  | .keyword "true" => .ok true
  | .keyword "false" => .ok false
  | _ => .error (p.invalid .flag)

def length : Except PropertyError (Length Float32) :=
  match p.value.item with
  | .number x => .ok (.ofPoints x)
  | .percent x => .ok (.ofPercent x)
  | .keyword "undefined" => .ok .undefined
  | .keyword _ => .error (p.invalid .length)

def lengthOrAuto : Except PropertyError (Length Float32) :=
  match p.value.item with
  | .number x => .ok (.ofPoints x)
  | .percent x => .ok (.ofPercent x)
  | .keyword "auto" => .ok .auto
  | .keyword "undefined" => .ok .undefined
  | .keyword _ => .error (p.invalid .lengthOrAuto)

def splitKey (key : List Char) : List Char × Option (List Char) :=
  match key.dropWhile (· != '-') with
  | [] => (key, none)
  | _ :: suffix => (key.takeWhile (· != '-'), some suffix)

def applyEdges (s : Style Float32) (group : String) (edge : Edge) :
    Except PropertyError (Style Float32) :=
  match group with
  | "margin" => do return { s with margin := s.margin.set edge (← p.lengthOrAuto) }
  | "padding" => do return { s with padding := s.padding.set edge (← p.length) }
  | "border" => do return { s with border := s.border.set edge (.ofPoints (← p.number)) }
  | _ => .error p.unknown

def applyEdge (s : Style Float32) : Except PropertyError (Style Float32) :=
  match Keyword.ofWord? p.key.item with
  | some edge => do return { s with position := s.position.set edge (← p.length) }
  | none =>
    let (group, suffix) := splitKey p.key.item.toList
    match suffix with
    | none => p.applyEdges s (String.ofList group) .all
    | some suffix => match Keyword.ofWord? (String.ofList suffix) with
      | some edge => p.applyEdges s (String.ofList group) edge
      | none => .error p.unknown

def apply (s : Style Float32) : Except PropertyError (Style Float32) :=
  match p.key.item with
  | "direction" => do return { s with direction := ← p.keyword }
  | "flex-direction" => do return { s with flexDirection := ← p.keyword }
  | "justify-content" => do return { s with justifyContent := ← p.keyword }
  | "align-items" => do return { s with alignItems := ← p.keyword }
  | "align-self" => do return { s with alignSelf := ← p.keyword }
  | "align-content" => do return { s with alignContent := ← p.keyword }
  | "flex-wrap" => do return { s with flexWrap := ← p.keyword }
  | "overflow" => do return { s with overflow := ← p.keyword }
  | "display" => do return { s with display := ← p.keyword }
  | "position" => do return { s with positionType := ← p.keyword }
  | "flex" => do return { s with flex := .of (← p.number) }
  | "flex-grow" => do return { s with flexGrow := .of (← p.number) }
  | "flex-shrink" => do return { s with flexShrink := .of (← p.number) }
  | "aspect-ratio" => do return { s with aspectRatio := .of (← p.number) }
  | "flex-basis" => do return { s with flexBasis := ← p.lengthOrAuto }
  | "width" => do return { s with size := s.size.set .width (← p.lengthOrAuto) }
  | "height" => do return { s with size := s.size.set .height (← p.lengthOrAuto) }
  | "min-width" => do return { s with minSize := s.minSize.set .width (← p.length) }
  | "min-height" => do return { s with minSize := s.minSize.set .height (← p.length) }
  | "max-width" => do return { s with maxSize := s.maxSize.set .width (← p.length) }
  | "max-height" => do return { s with maxSize := s.maxSize.set .height (← p.length) }
  | _ => p.applyEdge s

end Property

def applyAll (s : Style Float32) (properties : List (Located Property)) :
    Except PropertyError (Style Float32) :=
  properties.foldlM (fun s p => p.item.apply s) s

end Flexbox.Fixture
