import Flexbox.Layout
import Flexbox.Toml.Document

namespace Flexbox

structure Settings where
  scale : Float32
  webDefaults : Bool
  legacyStretch : Bool
  diffLegacyStretch : Bool
  printTree : Bool
  features : List Feature
  /-- Without a width the root sizes itself. -/
  width : Option Float32
  height : Option Float32
  direction : Direction

inductive SettingsError
  /-- Not a TOML document, a value of the wrong kind, or an unknown or repeated key. -/
  | malformed
  | keyword (error : UnknownKeyword)
  | scale (error : InvalidScale Float32)

namespace SettingsError

def message : SettingsError → String
  | malformed => "Failed to parse settings TOML: "
  | keyword e => "Invalid settings: " ++ e.message
  | scale e => e.message

end SettingsError

namespace Toml

namespace Value

def length? : Value → Option Float32
  | integer n => some (Float32.ofInt n)
  | float x => some x.toFloat32
  | _ => none

def flag? : Value → Option Bool
  | boolean b => some b
  | _ => none

def word? : Value → Option String
  | string s => some s
  | _ => none

def words? : Value → Option (List String)
  | array items => items.mapM word?
  | _ => none

def fields? (names : List String) (required : Nat) : Value → Option Entries
  | table _ es => if es.all fun (key, _) => names.contains key then some es else none
  | array items => if required ≤ items.length then some (names.zip items) else none
  | _ => none

end Value

namespace Entries

def optional {β : Type} (es : Entries) (key : String) (read : Value → Option β) :
    Option (Option β) :=
  match es.find? key with
  | none => some none
  | some v => (read v).map some

def record (es : Entries) (key : String) (names : List String) (required : Nat) : Option Entries :=
  match es.find? key with
  | none => some []
  | some v => v.fields? names required

end Entries

end Toml

namespace Settings

def initial : Settings where
  scale := 1
  webDefaults := false
  legacyStretch := false
  diffLegacyStretch := false
  printTree := false
  features := []
  width := none
  height := none
  direction := .ltr

def layoutKeys : List String :=
  ["point_scale_factor", "use_web_defaults", "use_legacy_stretch_behaviour",
    "diff_legacy_stretch_behaviour", "print_tree", "experimental_features"]

def viewportKeys : List String := ["width", "height", "direction"]

structure Words where
  settings : Settings
  features : List String
  direction : Option String

def ofEntries? (root : Toml.Entries) : Option Words := do
  if !root.all fun (key, _) => key == "layout" || key == "viewport" then none
  let layout ← root.record "layout" layoutKeys 5
  let viewport ← root.record "viewport" viewportKeys 3
  let scale ← layout.optional "point_scale_factor" Toml.Value.length?
  let webDefaults ← layout.optional "use_web_defaults" Toml.Value.flag?
  let legacyStretch ← layout.optional "use_legacy_stretch_behaviour" Toml.Value.flag?
  let diffLegacyStretch ← layout.optional "diff_legacy_stretch_behaviour" Toml.Value.flag?
  let printTree ← layout.optional "print_tree" Toml.Value.flag?
  let features ← layout.optional "experimental_features" Toml.Value.words?
  let width ← viewport.optional "width" Toml.Value.length?
  let height ← viewport.optional "height" Toml.Value.length?
  let direction ← viewport.optional "direction" Toml.Value.word?
  return {
    settings := { initial with
      scale := scale.getD initial.scale
      webDefaults := webDefaults.getD false
      legacyStretch := legacyStretch.getD false
      diffLegacyStretch := diffLegacyStretch.getD false
      printTree := printTree.getD false
      width := width
      height := height }
    features := features.getD []
    direction := direction }

def keyword {κ : Type} [Keyword κ] (word : String) : Except SettingsError κ :=
  (Keyword.ofWord word).mapError .keyword

def ofToml (text : String) : Except SettingsError Settings := do
  match (Toml.parse? text).bind ofEntries? with
  | none => throw .malformed
  | some words =>
    let features ← words.features.mapM keyword
    let direction ← match words.direction with
      | none => pure initial.direction
      | some word => keyword word
    return { words.settings with features := features, direction := direction }

def config (s : Settings) : Except SettingsError (Config Float32) := do
  let config := s.features.foldl (fun c feature => c.withFeature feature true) Config.initial
  let config ← (config.withScale s.scale).mapError .scale
  return { config with
    webDefaults := s.webDefaults
    legacyStretch := s.legacyStretch
    diffLegacyStretch := s.diffLegacyStretch
    printTree := s.printTree }

def extent : Option Float32 → Extent Float32
  | none => .undefined
  | some x => .of x

def viewport (s : Settings) : Viewport Float32 where
  width := extent s.width
  height := extent s.height
  direction := s.direction

end Settings

end Flexbox
