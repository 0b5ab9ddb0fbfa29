import Flexbox.Proofs.Fixture.Outlines

namespace Flexbox.Fixture

theorem Span.across_append (ls ms : List Lexeme) (hl : ls ≠ []) (hm : ms ≠ []) :
    across (ls ++ ms) = ⟨(across ls).start, (across ms).stop⟩ := by
  obtain ⟨last, hlast⟩ := Option.isSome_iff_exists.mp (List.getLast?_isSome.mpr hm)
  have hstop : (ls ++ ms).getLast? = some last := by simp [hlast]
  obtain ⟨first, rest, rfl⟩ := List.exists_cons_of_ne_nil hl
  simp only [across, hstop, hlast]
  rfl

theorem ValueForm.lexemes_ne_nil (v : ValueForm) : v.lexemes ≠ [] := by
  cases v <;> simp [lexemes]

theorem ValueForm.across_percent (m : Option Span) (x : Located Float32) (percent : Span) :
    Span.across (number m x (some percent)).lexemes =
      ⟨(Span.across (number m x none).lexemes).start, percent.stop⟩ := by
  have hsplit : (number m x (some percent)).lexemes =
      (number m x none).lexemes ++ [⟨.percent, percent⟩] := by
    simp [lexemes, markLexemes]
  rw [hsplit, Span.across_append _ _ (lexemes_ne_nil _) (by simp)]
  rfl

theorem PropertyForm.property_eq (p : PropertyForm) :
    p.property = ⟨⟨p.key, ⟨p.value.value, .across p.value.lexemes⟩⟩,
      ⟨p.key.span.start, (Span.across p.value.lexemes).stop⟩⟩ :=
  congrArg (Located.mk _) (Span.across_append [⟨.ident p.key.item, p.key.span⟩, ⟨.colon, p.colon⟩]
    p.value.lexemes (by simp) p.value.lexemes_ne_nil)

namespace Front

def isText : Front → Bool
  | container _ _ => false
  | text _ _ _ => true

def name : Front → Option (Located String)
  | container _ name | text _ name _ => name

def content : Front → String
  | container _ _ => ""
  | text _ _ content => content.item

def place : Front → Place
  | container _ none => .keyword
  | container _ (some _) => .name
  | text _ _ _ => .content

/-- What the reader holds of a declaration with this front. -/
def holding (f : Front) (ps : List (Located Property)) (place : Place) (span : Span) :
    Unfinished :=
  ⟨f.isText, span.start, span.stop, f.name, f.content, ps.reverse, [], place⟩

end Front

namespace Listing

def properties (b : Listing) : List (Located Property) :=
  (b.before.map fun (list, _) => list.properties).getD []

theorem properties_list (b : Listing) (p : PropertyForm) :
    (b.list p).properties = b.properties ++ [p.property] := by
  obtain ⟨front, opening, before⟩ := b
  rcases before with - | ⟨list, comma⟩ <;> simp [properties, Listing.list, ListForm.properties]

theorem properties_add (b : Listing) (p : PropertyForm) (comma : Span) :
    (b.add p comma).properties = b.properties ++ [p.property] := b.properties_list p

theorem properties_last (b : Listing) (p : PropertyForm) (closing : Span) :
    (b.last p closing).properties = b.properties ++ [p.property] := b.properties_list p

theorem properties_block (b : Listing) (closing : Span) :
    (b.block closing).properties = b.properties := by
  obtain ⟨front, opening, before⟩ := b
  cases before <;> rfl

end Listing

def OpenBody.holding (b : OpenBody) (place : Place) (span : Span) : Unfinished :=
  ⟨false, span.start, span.stop, b.name, "", (blockProperties b.block).reverse,
    (NodeForm.declarations b.children).reverse, place⟩

namespace Draft

/-- What the reader holds of a draft that reaches across a span. -/
def holding : Draft → Span → Unfinished
  | text _ none, span => ⟨true, span.start, span.stop, none, "", [], [], .keyword⟩
  | text _ (some name), span => ⟨true, span.start, span.stop, some name, "", [], [], .name⟩
  | front f, span => f.holding [] f.place span
  | property b, span => b.front.holding b.properties .property span
  | key b k, span => b.front.holding b.properties (.key k) span
  | colon b k _, span => b.front.holding b.properties (.colon k) span
  | minus b k _ m, span => b.front.holding b.properties (.minus k m.start) span
  | number b k _ m x, span => b.front.holding b.properties (.number k (ValueForm.signed m x.item)
    (.across (ValueForm.number m x none).lexemes)) span
  | value b p, span => b.front.holding (b.properties ++ [p.property]) .value span
  | block f b, span => f.holding b.properties .block span
  | body b, span => b.holding .body span
  | closed b _, span => b.holding .closed span

theorem read_holding (d : Draft) (span : Span) (l : Lexeme) :
    (d.holding span).read? l = (d.next? l).map (·.holding ⟨span.start, l.span.stop⟩) := by
  obtain ⟨token, here⟩ := l
  -- A property is complete with its value, and what is held then moves on by one lexeme.
  have hadd : ∀ (b : Listing) (p : PropertyForm) (place q : Place),
      ((b.front.holding b.properties place span).addProperty p.key p.value.value
          (.across p.value.lexemes)).moveTo q here.stop =
        b.front.holding (b.properties ++ [p.property]) q ⟨span.start, here.stop⟩ := by
    intro b p place q
    simp [Front.holding, Unfinished.addProperty, Unfinished.moveTo, PropertyForm.property_eq]
  cases d with
  | text keyword name => cases name <;> cases token <;> rfl
  | front f => rcases f with ⟨_, - | _⟩ | _ <;> cases token <;> rfl
  | property b =>
    cases token with
    | bracketClose =>
      simp only [next?, Option.map_some, holding, Listing.properties_block]
      rfl
    | _ => rfl
  | key b k => cases token <;> rfl
  | colon b k c =>
    cases token with
    | ident n => exact congrArg some (hadd b ⟨k, c, .word ⟨n, here⟩⟩ (.colon k) .value)
    | text => exact congrArg some (hadd b ⟨k, c, .text here⟩ (.colon k) .value)
    | _ => rfl
  | minus b k c m => cases token <;> rfl
  | number b k c m x =>
    cases token with
    | percent =>
      have hp := hadd b ⟨k, c, .number m x (some here)⟩ (.number k (ValueForm.signed m x.item)
        (.across (ValueForm.number m x none).lexemes)) .value
      rw [ValueForm.across_percent] at hp
      exact congrArg some hp
    | comma =>
      simp only [next?, Option.map_some, holding, Listing.properties_add]
      exact congrArg some (hadd b ⟨k, c, .number m x none⟩ _ .property)
    | bracketClose =>
      simp only [next?, Option.map_some, holding, Listing.properties_last]
      exact congrArg some (hadd b ⟨k, c, .number m x none⟩ _ .block)
    | _ => rfl
  | value b p =>
    cases token with
    | comma =>
      simp only [next?, Option.map_some, holding, Listing.properties_add]
      rfl
    | bracketClose =>
      simp only [next?, Option.map_some, holding, Listing.properties_last]
      rfl
    | _ => rfl
  | block f b => cases f <;> cases token <;> rfl
  | body b => cases token <;> rfl
  | closed b closing => cases token <;> rfl

def unfinished (d : Draft) : Unfinished := d.holding (.across d.lexemes)

theorem lexemes_ne_nil (d : Draft) : d.lexemes ≠ [] := by
  have hfront : ∀ f : Front, f.lexemes ≠ [] := by
    intro f
    cases f <;> simp [Front.lexemes]
  cases d <;> simp [lexemes, Listing.lexemes, OpenBody.lexemes, hfront]

theorem read_unfinished (d : Draft) (l : Lexeme) :
    d.unfinished.read? l = (d.next? l).map unfinished := by
  rw [unfinished, read_holding]
  cases hn : d.next? l with
  | none => rfl
  | some e =>
    rw [Option.map_some, Option.map_some, unfinished, lexemes_next hn,
      Span.across_append _ _ d.lexemes_ne_nil (by simp)]
    rfl

theorem canEnd_unfinished (d : Draft) : d.unfinished.canEnd = d.form?.isSome := by
  cases d with
  | text keyword name => cases name <;> rfl
  | front f => rcases f with ⟨_, - | _⟩ | _ <;> rfl
  | _ => rfl

theorem finish_unfinished {d : Draft} {f : NodeForm} (h : d.form? = some f) :
    d.unfinished.finish = f.declaration := by
  rw [unfinished, ← lexemes_form h]
  cases d <;> cases h
  case front f => cases f <;> rfl
  case block f b =>
    cases f <;> simp [holding, Front.holding, Unfinished.finish, Front.form, Front.isText,
      Front.name, Front.content, NodeForm.declaration, blockProperties]
  case closed b closing =>
    simp [holding, OpenBody.holding, Unfinished.finish, OpenBody.form, NodeForm.declaration]

theorem eq_body_of_place {d : Draft} (h : d.unfinished.place = .body) : ∃ b, d = body b := by
  cases d with
  | text keyword name => cases name <;> cases h
  | front f => rcases f with ⟨_, - | _⟩ | _ <;> cases h
  | body b => exact ⟨b, rfl⟩
  | _ => cases h

theorem addChild_unfinished {d : Draft} {f : NodeForm} (h : d.form? = some f) (b : OpenBody) :
    (body b).unfinished.addChild d.unfinished.finish = (body (b.add f)).unfinished := by
  have hd : f.lexemes ≠ [] := by
    rw [lexemes_form h]
    exact d.lexemes_ne_nil
  have hb : b.lexemes ≠ [] := (body b).lexemes_ne_nil
  have hspan : f.declaration.span = .across f.lexemes := by
    cases f <;> rfl
  have happend : ∀ fs, NodeForm.declarations (fs ++ [f]) =
      NodeForm.declarations fs ++ [f.declaration] := by
    intro fs
    induction fs with
    | nil => rfl
    | cons g fs ih => simp [NodeForm.declarations, ih]
  rw [finish_unfinished h]
  simp [unfinished, holding, OpenBody.holding, Unfinished.addChild, hspan,
    Span.across_append _ _ hb hd]
  simp [OpenBody.add, happend]

end Draft

theorem Reading.read_inside {u : Unfinished} (h : u.place ≠ .body) (enclosing : List Unfinished)
    (l : Lexeme) :
    (inside u enclosing).read? l = match u.read? l, enclosing with
      | some v, _ => some (inside v enclosing)
      | none, container :: outer =>
        if u.canEnd then readBetween? (container.addChild u.finish) outer l else none
      | none, [] => none := by
  cases hu : u.read? l with
  | some v => simp [read?, hu]
  | none => cases enclosing <;> simp [read?, hu]

namespace Outline

def reading : Outline → Reading
  | nothing => .nothing
  | inside d outer => .inside d.unfinished (outer.map fun b => (Draft.body b).unfinished)

theorem opening_unfinished (l : Lexeme) :
    Reading.opening? l = (opening? l).map Draft.unfinished := by
  obtain ⟨token, span⟩ := l
  cases token <;> rfl

theorem readBetween_unfinished (b : OpenBody) (outer : List OpenBody) (l : Lexeme) :
    Reading.readBetween? (Draft.body b).unfinished
        (outer.map fun b => (Draft.body b).unfinished) l =
      (between? b outer l).map reading := by
  rw [Reading.readBetween?, opening_unfinished, between?]
  cases opening? l with
  | none =>
    simp only [Option.map_none, Draft.read_unfinished, Option.map_map]
    rfl
  | some d => rfl

theorem next_outside {d : Draft} (hd : ¬ ∃ b, d = .body b) (outer : List OpenBody) (l : Lexeme) :
    (inside d outer).next? l = match d.next? l, d.form?, outer with
      | some e, _, outer => some (inside e outer)
      | none, some f, b :: outer => between? (b.add f) outer l
      | none, _, _ => none := by
  cases d with
  | body b => exact absurd ⟨b, rfl⟩ hd
  | _ => rfl

theorem read_reading (o : Outline) (l : Lexeme) :
    o.reading.read? l = (o.next? l).map reading := by
  cases o with
  | nothing =>
    simp only [reading, Reading.read?, opening_unfinished, next?, Option.map_map]
    rfl
  | inside d outer =>
    by_cases hd : ∃ b, d = .body b
    · obtain ⟨b, rfl⟩ := hd
      exact readBetween_unfinished b outer l
    · rw [next_outside hd, reading, Reading.read_inside (mt Draft.eq_body_of_place hd),
        d.read_unfinished, d.canEnd_unfinished]
      cases d.next? l with
      | some e => rfl
      | none =>
        cases outer with
        | nil => cases d.form? <;> rfl
        | cons b outer =>
          cases hf : d.form? with
          | none => rfl
          | some f =>
            simp only [Option.map_none, List.map_cons, Option.isSome_some, if_true,
              Draft.addChild_unfinished hf, readBetween_unfinished]

theorem finish_reading (o : Outline) : o.reading.finish? = o.form?.map NodeForm.declaration := by
  match o with
  | nothing => rfl
  | inside d (b :: outer) => rfl
  | inside d [] =>
    simp only [reading, List.map_nil, Reading.finish?, Draft.canEnd_unfinished, form?]
    cases hf : d.form? with
    | none => rfl
    | some f => simp [Draft.finish_unfinished hf]

end Outline

end Flexbox.Fixture
