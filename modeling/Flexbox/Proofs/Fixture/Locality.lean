import Flexbox.Proofs.Fixture.Cuts
import Flexbox.Proofs.Fixture.Parsing
import Mathlib.Logic.Relation

namespace Flexbox.Fixture

def Property.shift (k : Nat) (p : Property) : Property := ⟨p.key.shift k, p.value.shift k⟩

mutual

def Declaration.shift (k : Nat) : Declaration → Declaration
  | ⟨kind, name, properties, children, span⟩ =>
    ⟨kind, name.map (Located.shift k),
      properties.map fun p => ⟨p.item.shift k, p.span.shift k⟩,
      shiftAll k children, span.shift k⟩

def Declaration.shiftAll (k : Nat) : List Declaration → List Declaration
  | [] => []
  | d :: rest => d.shift k :: shiftAll k rest

end

def ValueForm.shift (k : Nat) : ValueForm → ValueForm
  | number minus digits percent =>
    number (minus.map (Span.shift k)) (digits.shift k) (percent.map (Span.shift k))
  | word name => word (name.shift k)
  | text span => text (span.shift k)

def PropertyForm.shift (k : Nat) (p : PropertyForm) : PropertyForm :=
  ⟨p.key.shift k, p.colon.shift k, p.value.shift k⟩

def ListForm.shift (k : Nat) (l : ListForm) : ListForm :=
  ⟨l.first.shift k, l.more.map fun (comma, p) => (comma.shift k, p.shift k)⟩

def BlockForm.shift (k : Nat) (b : BlockForm) : BlockForm :=
  ⟨b.opening.shift k,
    b.content.map fun (list, comma) => (list.shift k, comma.map (Span.shift k)), b.closing.shift k⟩

mutual

def NodeForm.shift (k : Nat) : NodeForm → NodeForm
  | bare keyword name block =>
    bare (keyword.shift k) (name.map (Located.shift k)) (block.map (BlockForm.shift k))
  | braced keyword name block opening children closing =>
    braced (keyword.shift k) (name.map (Located.shift k)) (block.map (BlockForm.shift k))
      (opening.shift k) (shiftAll k children) (closing.shift k)
  | text keyword name content block =>
    text (keyword.shift k) (name.map (Located.shift k)) (content.shift k)
      (block.map (BlockForm.shift k))

def NodeForm.shiftAll (k : Nat) : List NodeForm → List NodeForm
  | [] => []
  | f :: rest => f.shift k :: shiftAll k rest

end

section Shifting

variable (k : Nat)

@[simp] theorem markLexemes_shift (token : Token) (span : Option Span) :
    markLexemes token (span.map (Span.shift k)) =
      (markLexemes token span).map (Lexeme.shift k) := by
  cases span <;> rfl

@[simp] theorem nameLexemes_shift (name : Option (Located String)) :
    nameLexemes (name.map (Located.shift k)) = (nameLexemes name).map (Lexeme.shift k) := by
  cases name <;> rfl

@[simp] theorem ValueForm.lexemes_shift (v : ValueForm) :
    (v.shift k).lexemes = v.lexemes.map (Lexeme.shift k) := by
  cases v <;> simp [shift, lexemes, Lexeme.shift, Located.shift]

@[simp] theorem PropertyForm.lexemes_shift (p : PropertyForm) :
    (p.shift k).lexemes = p.lexemes.map (Lexeme.shift k) := by
  simp [shift, lexemes, Lexeme.shift, Located.shift]

@[simp] theorem ListForm.lexemes_shift (l : ListForm) :
    (l.shift k).lexemes = l.lexemes.map (Lexeme.shift k) := by
  simp [shift, lexemes, List.map_flatMap, List.flatMap_map, Lexeme.shift]

@[simp] theorem BlockForm.lexemes_shift (b : BlockForm) :
    (b.shift k).lexemes = b.lexemes.map (Lexeme.shift k) := by
  obtain ⟨opening, - | ⟨list, comma⟩, closing⟩ := b <;>
    simp [shift, lexemes, contentLexemes, Lexeme.shift]

@[simp] theorem blockLexemes_shift (block : Option BlockForm) :
    blockLexemes (block.map (BlockForm.shift k)) = (blockLexemes block).map (Lexeme.shift k) := by
  cases block <;> simp [blockLexemes]

mutual

@[simp] theorem NodeForm.lexemes_shift (f : NodeForm) :
    (f.shift k).lexemes = f.lexemes.map (Lexeme.shift k) := by
  cases f with
  | bare keyword name block => simp [shift, lexemes, Lexeme.shift]
  | braced keyword name block opening children closing =>
    simp [shift, lexemes, Lexeme.shift, allLexemes_shiftAll children]
  | text keyword name content block => simp [shift, lexemes, Lexeme.shift, Located.shift]

theorem NodeForm.allLexemes_shiftAll (fs : List NodeForm) :
    allLexemes (shiftAll k fs) = (allLexemes fs).map (Lexeme.shift k) := by
  match fs with
  | [] => rfl
  | f :: fs => simp [shiftAll, allLexemes, f.lexemes_shift, allLexemes_shiftAll fs]

end

theorem ValueForm.value_shift (v : ValueForm) : (v.shift k).value = v.value := by
  cases v <;> simp [shift, value, signed, Located.shift]

theorem PropertyForm.property_shift (p : PropertyForm) :
    (p.shift k).property = ⟨p.property.item.shift k, p.property.span.shift k⟩ := by
  have hlexemes : p.lexemes ≠ [] := by simp [lexemes]
  rw [property, lexemes_shift, Span.across_shift k hlexemes]
  simp only [shift, ValueForm.lexemes_shift, Span.across_shift k p.value.lexemes_ne_nil,
    ValueForm.value_shift]
  rfl

theorem blockProperties_shift (block : Option BlockForm) :
    blockProperties (block.map (BlockForm.shift k)) =
      (blockProperties block).map fun p => ⟨p.item.shift k, p.span.shift k⟩ := by
  rcases block with - | ⟨opening, - | ⟨list, comma⟩, closing⟩
  · rfl
  · rfl
  · simp [blockProperties, BlockForm.shift, BlockForm.properties, ListForm.shift,
      ListForm.properties, PropertyForm.property_shift]

theorem NodeForm.span_declaration (f : NodeForm) : f.declaration.span = .across f.lexemes := by
  cases f <;> rfl

theorem NodeForm.lexemes_ne_nil (f : NodeForm) : f.lexemes ≠ [] := by
  cases f <;> simp [lexemes]

mutual

theorem NodeForm.declaration_shift (f : NodeForm) :
    (f.shift k).declaration = f.declaration.shift k := by
  have hspan : Span.across (f.shift k).lexemes = (Span.across f.lexemes).shift k := by
    rw [f.lexemes_shift, Span.across_shift k f.lexemes_ne_nil]
  cases f with
  | bare keyword name block =>
    simp only [shift] at hspan ⊢
    simp only [declaration, hspan, blockProperties_shift, Declaration.shift, Declaration.shiftAll]
  | braced keyword name block opening children closing =>
    simp only [shift] at hspan ⊢
    simp only [declaration, hspan, blockProperties_shift, Declaration.shift,
      declarations_shiftAll children]
  | text keyword name content block =>
    simp only [shift] at hspan ⊢
    simp only [declaration, hspan, blockProperties_shift, Declaration.shift, Declaration.shiftAll]
    rfl

theorem NodeForm.declarations_shiftAll (fs : List NodeForm) :
    declarations (shiftAll k fs) = Declaration.shiftAll k (declarations fs) := by
  match fs with
  | [] => rfl
  | f :: fs =>
    simp [shiftAll, declarations, Declaration.shiftAll, f.declaration_shift,
      declarations_shiftAll fs]

end

end Shifting

/-- A declaration in another, at any depth. -/
def Declaration.Nested : Declaration → Declaration → Prop :=
  Relation.ReflTransGen fun d child => child ∈ d.children

namespace NodeForm

theorem exists_of_mem_declarations {fs : List NodeForm} {d : Declaration}
    (h : d ∈ declarations fs) :
    ∃ f : NodeForm, f.declaration = d ∧ f.lexemes <:+: allLexemes fs := by
  induction fs with
  | nil => cases h
  | cons f fs ih =>
    rcases List.mem_cons.mp h with rfl | h
    · exact ⟨f, rfl, (List.prefix_append _ _).isInfix⟩
    · obtain ⟨g, hg, hfs⟩ := ih h
      exact ⟨g, hg, hfs.trans (List.suffix_append _ _).isInfix⟩

theorem exists_of_mem_children {f : NodeForm} {d : Declaration}
    (h : d ∈ f.declaration.children) :
    ∃ g : NodeForm, g.declaration = d ∧ g.lexemes <:+: f.lexemes := by
  cases f with
  | bare | text => cases h
  | braced keyword name block opening children closing =>
    obtain ⟨g, hg, hlexemes⟩ := exists_of_mem_declarations h
    refine ⟨g, hg, hlexemes.trans ⟨⟨.node, keyword⟩ :: (nameLexemes name ++ (blockLexemes block ++
      [⟨.braceOpen, opening⟩])), [⟨.braceClose, closing⟩], ?_⟩⟩
    simp [lexemes]

/-- The lexemes of a nested declaration stand together. -/
theorem exists_of_nested {f : NodeForm} {d : Declaration} (h : f.declaration.Nested d) :
    ∃ g : NodeForm, g.declaration = d ∧ g.lexemes <:+: f.lexemes := by
  induction h with
  | refl => exact ⟨f, rfl, List.infix_rfl⟩
  | tail _ hchild ih =>
    obtain ⟨g, rfl, hf⟩ := ih
    obtain ⟨e, he, hg⟩ := exists_of_mem_children hchild
    exact ⟨e, he, hg.trans hf⟩

end NodeForm

/-- The text under a declaration of a document parses to that declaration, with all spans counted
from the start of that text. -/
theorem parse_is_local {source : String} {d n : Declaration} (h : parse source = .ok d)
    (hn : d.Nested n) :
    String.Pos.Raw.IsValid source ⟨n.span.start⟩ ∧ String.Pos.Raw.IsValid source ⟨n.span.stop⟩ ∧
    ∃ m, parse (n.span.slice source) = .ok m ∧ n = m.shift n.span.start := by
  obtain ⟨f, hf, rfl⟩ := parse_eq_ok.mp h
  obtain ⟨g, rfl, hg⟩ := NodeForm.exists_of_nested hn
  obtain ⟨hstart, hstop, hslice⟩ := lex_slice (hf ▸ hg) g.lexemes_ne_nil
  rw [← g.span_declaration] at hstart hstop hslice
  have hsentence : Sentence ((lex (g.declaration.span.slice source)).map Lexeme.token) := by
    refine ⟨g, ?_⟩
    rw [hslice, List.map_map]
    rfl
  obtain ⟨e, he⟩ := sentence_iff.mp hsentence
  refine ⟨hstart, hstop, e.declaration, parse_eq_ok.mpr ⟨e, he, rfl⟩, ?_⟩
  -- the derivation of the text, shifted, derives the lexemes of the declaration, as only it does
  have hshift : e.shift g.declaration.span.start = g := by
    apply NodeForm.lexemes_injective
    rw [NodeForm.lexemes_shift, he, ← hslice]
  rw [← NodeForm.declaration_shift, hshift]

theorem exists_nested_of_report (source : String) (span : Span)
    (h : (match parse source with
      | .ok d => d.children.head?.bind fun c => c.children.head?.map Declaration.span
      | .error _ => none) = some span) :
    ∃ d n, parse source = .ok d ∧ d.Nested n ∧ n.span = span := by
  cases hd : parse source with
  | error e => simp [hd] at h
  | ok d =>
    simp only [hd, Option.bind_eq_some_iff, Option.map_eq_some_iff] at h
    obtain ⟨c, hc, n, hn, hspan⟩ := h
    exact ⟨d, n, rfl, .tail (.single (List.mem_of_mem_head? hc)) (List.mem_of_mem_head? hn), hspan⟩

/-- Two levels down, behind a comment with a brace and a character of two bytes. -/
theorem parse_is_local_grandchild :
    let source := "/* \x7b */ é node \x7b node \x7b text \"a\\\"\" [width: 1.5%,] \x7d // \n \x7d"
    ∃ d n, parse source = .ok d ∧ d.Nested n ∧ n.span = ⟨25, 50⟩ ∧
      String.Pos.Raw.IsValid source ⟨25⟩ ∧ String.Pos.Raw.IsValid source ⟨50⟩ ∧
      ∃ m, parse "text \"a\\\"\" [width: 1.5%,]" = .ok m ∧ n = m.shift 25 := by
  intro source
  obtain ⟨d, n, h, hn, hspan⟩ := exists_nested_of_report source ⟨25, 50⟩ (by decide +kernel)
  have hslice : Span.slice ⟨25, 50⟩ source = "text \"a\\\"\" [width: 1.5%,]" := by decide +kernel
  have hlocal := parse_is_local h hn
  rw [hspan, hslice] at hlocal
  exact ⟨d, n, h, hn, hspan, hlocal⟩

end Flexbox.Fixture
