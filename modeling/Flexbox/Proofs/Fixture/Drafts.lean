import Flexbox.Proofs.Fixture.Forms

namespace Flexbox.Fixture

inductive Front
  | container (keyword : Span) (name : Option (Located String))
  | text (keyword : Span) (name : Option (Located String)) (content : Located String)

namespace Front

def lexemes : Front → List Lexeme
  | container keyword name => ⟨.node, keyword⟩ :: nameLexemes name
  | text keyword name content =>
    ⟨.text, keyword⟩ :: (nameLexemes name ++ [⟨.string content.item, content.span⟩])

def form : Front → Option BlockForm → NodeForm
  | container keyword name, block => .bare keyword name block
  | text keyword name content, block => .text keyword name content block

@[simp] theorem lexemes_form (front : Front) (block : Option BlockForm) :
    (front.form block).lexemes = front.lexemes ++ blockLexemes block := by
  cases front <;> simp [form, lexemes, NodeForm.lexemes]

end Front

/-- A block read up to where a property may start. -/
structure Listing where
  front : Front
  opening : Span
  /-- The properties so far, with the comma behind them. -/
  before : Option (ListForm × Span)

namespace Listing

def content (b : Listing) : Option (ListForm × Option Span) :=
  b.before.map fun (list, comma) => (list, some comma)

def lexemes (b : Listing) : List Lexeme :=
  b.front.lexemes ++ ⟨.bracketOpen, b.opening⟩ :: BlockForm.contentLexemes b.content

def list (b : Listing) (p : PropertyForm) : ListForm :=
  match b.before with
  | none => ⟨p, []⟩
  | some (list, comma) => ⟨list.first, list.more ++ [(comma, p)]⟩

def block (b : Listing) (closing : Span) : BlockForm := ⟨b.opening, b.content, closing⟩

/-- The block with one more property and a comma behind it. -/
def add (b : Listing) (p : PropertyForm) (comma : Span) : Listing :=
  ⟨b.front, b.opening, some (b.list p, comma)⟩

def last (b : Listing) (p : PropertyForm) (closing : Span) : BlockForm :=
  ⟨b.opening, some (b.list p, none), closing⟩

theorem lexemes_list (b : Listing) (p : PropertyForm) :
    (b.list p).lexemes = BlockForm.contentLexemes b.content ++ p.lexemes := by
  obtain ⟨front, opening, before⟩ := b
  rcases before with - | ⟨list, comma⟩ <;>
    simp [Listing.list, content, ListForm.lexemes, BlockForm.contentLexemes, markLexemes]

@[simp] theorem lexemes_block (b : Listing) (closing : Span) :
    b.front.lexemes ++ (b.block closing).lexemes = b.lexemes ++ [⟨.bracketClose, closing⟩] := by
  simp [lexemes, block, BlockForm.lexemes]

@[simp] theorem lexemes_add (b : Listing) (p : PropertyForm) (comma : Span) :
    (b.add p comma).lexemes = b.lexemes ++ (p.lexemes ++ [⟨.comma, comma⟩]) := by
  simp [lexemes, add, content, BlockForm.contentLexemes, markLexemes, lexemes_list]

@[simp] theorem lexemes_last (b : Listing) (p : PropertyForm) (closing : Span) :
    b.front.lexemes ++ (b.last p closing).lexemes =
      b.lexemes ++ (p.lexemes ++ [⟨.bracketClose, closing⟩]) := by
  simp [lexemes, last, BlockForm.lexemes, BlockForm.contentLexemes, markLexemes, lexemes_list]

end Listing

/-- A container read up to where a child may start. -/
structure OpenBody where
  keyword : Span
  name : Option (Located String)
  block : Option BlockForm
  opening : Span
  children : List NodeForm

namespace OpenBody

def lexemes (b : OpenBody) : List Lexeme :=
  ⟨.node, b.keyword⟩ :: (nameLexemes b.name ++ (blockLexemes b.block ++
    ⟨.braceOpen, b.opening⟩ :: NodeForm.allLexemes b.children))

def form (b : OpenBody) (closing : Span) : NodeForm :=
  .braced b.keyword b.name b.block b.opening b.children closing

def add (b : OpenBody) (f : NodeForm) : OpenBody := { b with children := b.children ++ [f] }

@[simp] theorem lexemes_form (b : OpenBody) (closing : Span) :
    (b.form closing).lexemes = b.lexemes ++ [⟨.braceClose, closing⟩] := by
  simp [form, lexemes, NodeForm.lexemes]

@[simp] theorem lexemes_add (b : OpenBody) (f : NodeForm) :
    (b.add f).lexemes = b.lexemes ++ f.lexemes := by
  have happend : ∀ fs, NodeForm.allLexemes (fs ++ [f]) = NodeForm.allLexemes fs ++ f.lexemes := by
    intro fs
    induction fs with
    | nil => simp [NodeForm.allLexemes]
    | cons g fs ih => simp [NodeForm.allLexemes, ih]
  simp [add, lexemes, happend]

end OpenBody

/-- A declaration of which a part has been read. -/
inductive Draft
  /-- A text before its content. -/
  | text (keyword : Span) (name : Option (Located String))
  | front (front : Front)
  /-- Where a property may start. -/
  | property (b : Listing)
  | key (b : Listing) (key : Located String)
  | colon (b : Listing) (key : Located String) (colon : Span)
  | minus (b : Listing) (key : Located String) (colon minus : Span)
  /-- Behind a number that may still turn out to be a percentage. -/
  | number (b : Listing) (key : Located String) (colon : Span) (minus : Option Span)
    (digits : Located Float32)
  | value (b : Listing) (p : PropertyForm)
  | block (front : Front) (block : BlockForm)
  /-- Where a child may start. -/
  | body (b : OpenBody)
  | closed (b : OpenBody) (closing : Span)

namespace Draft

def lexemes : Draft → List Lexeme
  | text keyword name => ⟨.text, keyword⟩ :: nameLexemes name
  | front f => f.lexemes
  | property b => b.lexemes
  | key b k => b.lexemes ++ [⟨.ident k.item, k.span⟩]
  | colon b k c => b.lexemes ++ [⟨.ident k.item, k.span⟩, ⟨.colon, c⟩]
  | minus b k c m => b.lexemes ++ [⟨.ident k.item, k.span⟩, ⟨.colon, c⟩, ⟨.minus, m⟩]
  | number b k c m x => b.lexemes ++ PropertyForm.lexemes ⟨k, c, .number m x none⟩
  | value b p => b.lexemes ++ p.lexemes
  | block f b => f.lexemes ++ b.lexemes
  | body b => b.lexemes
  | closed b closing => (b.form closing).lexemes

@[simp] theorem lexemes_body (b : OpenBody) : (body b).lexemes = b.lexemes := rfl

def next? (d : Draft) (l : Lexeme) : Option Draft :=
  match d, l.token with
  | text keyword none, .ident n => some (text keyword (some ⟨n, l.span⟩))
  | text keyword name, .string s => some (front (.text keyword name ⟨s, l.span⟩))
  | front (.container keyword none), .ident n =>
    some (front (.container keyword (some ⟨n, l.span⟩)))
  | front (.container keyword name), .braceOpen =>
    some (body ⟨keyword, name, none, l.span, []⟩)
  | front f, .bracketOpen => some (property ⟨f, l.span, none⟩)
  | property b, .ident n => some (key b ⟨n, l.span⟩)
  | property b, .bracketClose => some (block b.front (b.block l.span))
  | key b k, .colon => some (colon b k l.span)
  | colon b k c, .minus => some (minus b k c l.span)
  | colon b k c, .number x => some (number b k c none ⟨x, l.span⟩)
  | colon b k c, .ident n => some (value b ⟨k, c, .word ⟨n, l.span⟩⟩)
  | colon b k c, .text => some (value b ⟨k, c, .text l.span⟩)
  | minus b k c m, .number x => some (number b k c (some m) ⟨x, l.span⟩)
  | number b k c m x, .percent => some (value b ⟨k, c, .number m x (some l.span)⟩)
  | number b k c m x, .comma => some (property (b.add ⟨k, c, .number m x none⟩ l.span))
  | number b k c m x, .bracketClose =>
    some (block b.front (b.last ⟨k, c, .number m x none⟩ l.span))
  | value b p, .comma => some (property (b.add p l.span))
  | value b p, .bracketClose => some (block b.front (b.last p l.span))
  | block (.container keyword name) b, .braceOpen =>
    some (body ⟨keyword, name, some b, l.span, []⟩)
  | body b, .braceClose => some (closed b l.span)
  | _, _ => none

def form? : Draft → Option NodeForm
  | front f => some (f.form none)
  | block f b => some (f.form (some b))
  | closed b closing => some (b.form closing)
  | _ => none

theorem lexemes_next {d e : Draft} {l : Lexeme} (h : d.next? l = some e) :
    e.lexemes = d.lexemes ++ [l] := by
  obtain ⟨token, span⟩ := l
  unfold next? at h
  split at h
  all_goals cases h <;> simp_all [lexemes]
  -- What is left is where the lexeme becomes a part of its own.
  all_goals
    simp [Front.lexemes, Listing.lexemes, Listing.content, OpenBody.lexemes, PropertyForm.lexemes,
      ValueForm.lexemes, BlockForm.contentLexemes, NodeForm.allLexemes, blockLexemes, nameLexemes,
      markLexemes]

theorem lexemes_form {d : Draft} {f : NodeForm} (h : d.form? = some f) :
    f.lexemes = d.lexemes := by
  cases d <;> simp only [form?, reduceCtorEq, Option.some.injEq] at h
  all_goals
    subst h
    simp [lexemes, blockLexemes]

theorem completes (d : Draft) : ∃ (f : NodeForm) (rest : List Lexeme),
    f.lexemes = d.lexemes ++ rest := by
  let here : Span := ⟨0, 0⟩
  have hblock : ∀ (f : Front) (b : BlockForm),
      (f.form (some b)).lexemes = f.lexemes ++ b.lexemes := by
    intro f b
    simp [blockLexemes]
  have hlast : ∀ (b : Listing) (p : PropertyForm),
      (b.front.form (some (b.last p here))).lexemes =
        b.lexemes ++ (p.lexemes ++ [⟨.bracketClose, here⟩]) := by
    intro b p
    rw [hblock, Listing.lexemes_last]
  cases d with
  | text keyword name =>
    refine ⟨.text keyword name ⟨"", here⟩ none, [⟨.string "", here⟩], ?_⟩
    simp [lexemes, NodeForm.lexemes, blockLexemes]
  | front f => exact ⟨f.form none, [], by simp [lexemes, blockLexemes]⟩
  | property b =>
    exact ⟨b.front.form (some (b.block here)), _, (hblock _ _).trans (b.lexemes_block here)⟩
  | key b k =>
    refine ⟨_, [⟨.colon, here⟩, ⟨.text, here⟩, ⟨.bracketClose, here⟩],
      (hlast b ⟨k, here, .text here⟩).trans ?_⟩
    simp [lexemes, PropertyForm.lexemes, ValueForm.lexemes]
  | colon b k c =>
    refine ⟨_, [⟨.text, here⟩, ⟨.bracketClose, here⟩], (hlast b ⟨k, c, .text here⟩).trans ?_⟩
    simp [lexemes, PropertyForm.lexemes, ValueForm.lexemes]
  | minus b k c m =>
    refine ⟨_, [⟨.number 0, here⟩, ⟨.bracketClose, here⟩],
      (hlast b ⟨k, c, .number (some m) ⟨0, here⟩ none⟩).trans ?_⟩
    simp [lexemes, PropertyForm.lexemes, ValueForm.lexemes, markLexemes]
  | number b k c m x =>
    refine ⟨_, [⟨.bracketClose, here⟩], (hlast b ⟨k, c, .number m x none⟩).trans ?_⟩
    simp [lexemes]
  | value b p =>
    refine ⟨_, [⟨.bracketClose, here⟩], (hlast b p).trans ?_⟩
    simp [lexemes]
  | block f b => exact ⟨f.form (some b), [], by simp [lexemes, blockLexemes]⟩
  | body b => exact ⟨b.form here, _, b.lexemes_form here⟩
  | closed b closing => exact ⟨b.form closing, [], by simp [lexemes]⟩

end Draft

end Flexbox.Fixture
