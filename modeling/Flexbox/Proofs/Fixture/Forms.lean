import Flexbox.Fixture.Grammar

namespace Flexbox.Fixture

/-- The bytes from the start of the first lexeme to the end of the last. -/
def Span.across (ls : List Lexeme) : Span :=
  ⟨(ls.head?.map fun l => l.span.start).getD 0, (ls.getLast?.map fun l => l.span.stop).getD 0⟩

def markLexemes (token : Token) (span : Option Span) : List Lexeme :=
  span.toList.map fun span => ⟨token, span⟩

def nameLexemes (name : Option (Located String)) : List Lexeme :=
  name.toList.map fun name => ⟨.ident name.item, name.span⟩

/-- `value = '-'? number '%'? | ident | 'text'` -/
inductive ValueForm
  | number (minus : Option Span) (digits : Located Float32) (percent : Option Span)
  | word (name : Located String)
  | text (span : Span)

namespace ValueForm

def lexemes : ValueForm → List Lexeme
  | number minus digits percent =>
    markLexemes .minus minus ++ ⟨.number digits.item, digits.span⟩ :: markLexemes .percent percent
  | word name => [⟨.ident name.item, name.span⟩]
  | text span => [⟨.text, span⟩]

def signed (minus : Option Span) (x : Float32) : Float32 := if minus.isSome then -x else x

def value : ValueForm → PropertyValue
  | number minus digits percent =>
    if percent.isSome then .percent (signed minus digits.item)
    else .number (signed minus digits.item)
  | word name => .keyword name.item
  | text _ => .keyword "text"

end ValueForm

/-- `property = ident ':' value` -/
structure PropertyForm where
  key : Located String
  colon : Span
  value : ValueForm

namespace PropertyForm

def lexemes (p : PropertyForm) : List Lexeme :=
  ⟨.ident p.key.item, p.key.span⟩ :: ⟨.colon, p.colon⟩ :: p.value.lexemes

def property (p : PropertyForm) : Located Property :=
  ⟨⟨p.key, ⟨p.value.value, .across p.value.lexemes⟩⟩, .across p.lexemes⟩

end PropertyForm

/-- `list = property (',' property)*` -/
structure ListForm where
  first : PropertyForm
  more : List (Span × PropertyForm)

namespace ListForm

def lexemes (l : ListForm) : List Lexeme :=
  l.first.lexemes ++ l.more.flatMap fun (comma, p) => ⟨.comma, comma⟩ :: p.lexemes

def properties (l : ListForm) : List (Located Property) :=
  l.first.property :: l.more.map fun (_, p) => p.property

end ListForm

/-- `block = '[' (list ','?)? ']'` -/
structure BlockForm where
  opening : Span
  content : Option (ListForm × Option Span)
  closing : Span

namespace BlockForm

def contentLexemes : Option (ListForm × Option Span) → List Lexeme
  | none => []
  | some (list, comma) => list.lexemes ++ markLexemes .comma comma

def lexemes (b : BlockForm) : List Lexeme :=
  ⟨.bracketOpen, b.opening⟩ :: (contentLexemes b.content ++ [⟨.bracketClose, b.closing⟩])

def properties (b : BlockForm) : List (Located Property) :=
  match b.content with
  | none => []
  | some (list, _) => list.properties

end BlockForm

def blockLexemes (block : Option BlockForm) : List Lexeme := block.elim [] BlockForm.lexemes

def blockProperties (block : Option BlockForm) : List (Located Property) :=
  block.elim [] BlockForm.properties

/-- `node = 'node' ident? block? ('{' node* '}')? | 'text' ident? string block?` -/
inductive NodeForm
  | bare (keyword : Span) (name : Option (Located String)) (block : Option BlockForm)
  | braced (keyword : Span) (name : Option (Located String)) (block : Option BlockForm)
    (opening : Span) (children : List NodeForm) (closing : Span)
  | text (keyword : Span) (name : Option (Located String)) (content : Located String)
    (block : Option BlockForm)

namespace NodeForm

mutual

def lexemes : NodeForm → List Lexeme
  | bare keyword name block => ⟨.node, keyword⟩ :: (nameLexemes name ++ blockLexemes block)
  | braced keyword name block opening children closing =>
    ⟨.node, keyword⟩ :: (nameLexemes name ++ (blockLexemes block ++
      ⟨.braceOpen, opening⟩ :: (allLexemes children ++ [⟨.braceClose, closing⟩])))
  | text keyword name content block =>
    ⟨.text, keyword⟩ :: (nameLexemes name ++
      ⟨.string content.item, content.span⟩ :: blockLexemes block)

def allLexemes : List NodeForm → List Lexeme
  | [] => []
  | f :: rest => f.lexemes ++ allLexemes rest

end

mutual

def declaration : NodeForm → Declaration
  | f@(bare _ name block) => ⟨.container, name, blockProperties block, [], .across f.lexemes⟩
  | f@(braced _ name block _ children _) =>
    ⟨.container, name, blockProperties block, declarations children, .across f.lexemes⟩
  | f@(text _ name content block) =>
    ⟨.text content.item, name, blockProperties block, [], .across f.lexemes⟩

def declarations : List NodeForm → List Declaration
  | [] => []
  | f :: rest => f.declaration :: declarations rest

end

end NodeForm

/-- The token sequences that the grammar derives. -/
def Sentence (tokens : List Token) : Prop :=
  ∃ f : NodeForm, f.lexemes.map Lexeme.token = tokens

def Viable (tokens : List Token) : Prop := ∃ rest, Sentence (tokens ++ rest)

end Flexbox.Fixture
