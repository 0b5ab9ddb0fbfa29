import Flexbox.Proofs.Fixture.Drafts

namespace Flexbox.Fixture

namespace Draft

def run (d : Draft) (ls : List Lexeme) : Option Draft := ls.foldlM next? d

@[simp] theorem run_nil (d : Draft) : d.run [] = some d := rfl

@[simp] theorem run_cons (d : Draft) (l : Lexeme) (ls : List Lexeme) :
    d.run (l :: ls) = (d.next? l).bind (·.run ls) := rfl

@[simp] theorem run_append (d : Draft) (ls ms : List Lexeme) :
    d.run (ls ++ ms) = (d.run ls).bind (·.run ms) := List.foldlM_append

def behind (b : Listing) (p : PropertyForm) : Draft :=
  match p with
  | ⟨k, c, .number m x none⟩ => number b k c m x
  | p => value b p

theorem behind_comma (b : Listing) (p : PropertyForm) (span : Span) :
    (behind b p).next? ⟨.comma, span⟩ = some (property (b.add p span)) := by
  unfold behind
  split <;> rfl

theorem behind_close (b : Listing) (p : PropertyForm) (span : Span) :
    (behind b p).next? ⟨.bracketClose, span⟩ = some (block b.front (b.last p span)) := by
  unfold behind
  split <;> rfl

theorem run_property (b : Listing) (p : PropertyForm) :
    (property b).run p.lexemes = some (behind b p) := by
  obtain ⟨k, c, v⟩ := p
  cases v with
  | number m x percent =>
    cases m <;> cases percent <;> rfl
  | word name => rfl
  | text span => rfl

theorem run_more (more : List (Span × PropertyForm)) (b : Listing) (p : PropertyForm) :
    ∃ b' p', (behind b p).run (more.flatMap fun (comma, q) => ⟨.comma, comma⟩ :: q.lexemes) =
        some (behind b' p') ∧ b'.front = b.front ∧ b'.opening = b.opening ∧
      b'.list p' = ⟨(b.list p).first, (b.list p).more ++ more⟩ := by
  induction more generalizing b p with
  | nil => exact ⟨b, p, rfl, rfl, rfl, by simp⟩
  | cons q more ih =>
    obtain ⟨comma, q⟩ := q
    obtain ⟨b', p', hrun, hf, ho, hl⟩ := ih (b.add p comma) q
    refine ⟨b', p', ?_, hf, ho, ?_⟩
    · simp [behind_comma, run_property, hrun]
    · have hq : (b.add p comma).list q = ⟨(b.list p).first, (b.list p).more ++ [(comma, q)]⟩ := rfl
      rw [hl, hq]
      simp

theorem run_list (f : Front) (opening : Span) (list : ListForm) :
    ∃ b p, (property ⟨f, opening, none⟩).run list.lexemes = some (behind b p) ∧
      b.front = f ∧ b.opening = opening ∧ b.list p = list := by
  obtain ⟨b, p, hrun, hf, ho, hl⟩ := run_more list.more ⟨f, opening, none⟩ list.first
  refine ⟨b, p, ?_, hf, ho, hl⟩
  simp [ListForm.lexemes, run_property, hrun]

theorem run_block (f : Front) (b : BlockForm) : (front f).run b.lexemes = some (block f b) := by
  obtain ⟨opening, content, closing⟩ := b
  have hopen : (front f).next? ⟨.bracketOpen, opening⟩ = some (property ⟨f, opening, none⟩) := by
    rcases f with ⟨_, - | _⟩ | _ <;> rfl
  have hclose : ∀ b : Listing, (property b).next? ⟨.bracketClose, closing⟩ =
      some (block b.front (b.block closing)) := fun _ => rfl
  rcases content with - | ⟨list, comma⟩
  · simp [BlockForm.lexemes, BlockForm.contentLexemes, hopen, hclose, Listing.block,
      Listing.content]
  · obtain ⟨b, p, hrun, rfl, rfl, rfl⟩ := run_list f opening list
    rcases comma with - | comma
    · simp [BlockForm.lexemes, BlockForm.contentLexemes, hopen, hrun, markLexemes, behind_close,
        Listing.last]
    · simp [BlockForm.lexemes, BlockForm.contentLexemes, hopen, hrun, hclose, markLexemes,
        behind_comma, Listing.add, Listing.block, Listing.content]

def withBlock (f : Front) : Option BlockForm → Draft
  | none => front f
  | some b => block f b

theorem run_withBlock (f : Front) (b : Option BlockForm) :
    (front f).run (blockLexemes b) = some (withBlock f b) := by
  cases b with
  | none => rfl
  | some b => exact run_block f b

theorem form_withBlock (f : Front) (b : Option BlockForm) :
    (withBlock f b).form? = some (f.form b) := by
  cases b <;> rfl

theorem run_container (keyword : Span) (name : Option (Located String))
    (block : Option BlockForm) :
    (front (.container keyword none)).run (nameLexemes name ++ blockLexemes block) =
      some (withBlock (.container keyword name) block) := by
  have hname : (front (.container keyword none)).run (nameLexemes name) =
      some (front (.container keyword name)) := by
    cases name <;> rfl
  simp [hname, run_withBlock]

theorem run_text (keyword : Span) (name : Option (Located String)) (content : Located String)
    (block : Option BlockForm) :
    (text keyword none).run (nameLexemes name ++
        ⟨.string content.item, content.span⟩ :: blockLexemes block) =
      some (withBlock (.text keyword name content) block) := by
  have hname : (text keyword none).run (nameLexemes name) = some (text keyword name) := by
    cases name <;> rfl
  have hcontent : (text keyword name).next? ⟨.string content.item, content.span⟩ =
      some (front (.text keyword name content)) := by
    cases name <;> rfl
  simp [hname, hcontent, run_withBlock]

theorem next_brace (keyword : Span) (name : Option (Located String)) (block : Option BlockForm)
    (opening : Span) :
    (withBlock (.container keyword name) block).next? ⟨.braceOpen, opening⟩ =
      some (body ⟨keyword, name, block, opening, []⟩) := by
  cases block with
  | none => cases name <;> rfl
  | some b => rfl

theorem next_complete {d : Draft} {f : NodeForm} (h : d.form? = some f) {token : Token}
    (ht : token = .node ∨ token = .text ∨ token = .braceClose) (span : Span) :
    d.next? ⟨token, span⟩ = none := by
  cases d <;> cases h
  case front f => rcases ht with rfl | rfl | rfl <;> rcases f with ⟨_, - | _⟩ | _ <;> rfl
  case block f b => rcases ht with rfl | rfl | rfl <;> cases f <;> rfl
  case closed b closing => rcases ht with rfl | rfl | rfl <;> rfl

end Draft

/-- What has been taken: nothing yet, or a draft inside containers, the innermost first. -/
inductive Outline
  | nothing
  | inside (current : Draft) (enclosing : List OpenBody)

namespace Outline

def enclosingLexemes : List OpenBody → List Lexeme
  | [] => []
  | b :: outer => enclosingLexemes outer ++ b.lexemes

def lexemes : Outline → List Lexeme
  | nothing => []
  | inside d outer => enclosingLexemes outer ++ d.lexemes

def opening? (l : Lexeme) : Option Draft :=
  match l.token with
  | .node => some (.front (.container l.span none))
  | .text => some (.text l.span none)
  | _ => none

def between? (b : OpenBody) (outer : List OpenBody) (l : Lexeme) : Option Outline :=
  match opening? l with
  | some d => some (inside d (b :: outer))
  | none => ((Draft.body b).next? l).map (inside · outer)

/-- Takes one more lexeme. One that does not go on with a complete draft belongs to the container
around it. -/
def next? (o : Outline) (l : Lexeme) : Option Outline :=
  match o with
  | nothing => (opening? l).map (inside · [])
  | inside (.body b) outer => between? b outer l
  | inside d outer =>
    match d.next? l, d.form?, outer with
    | some e, _, outer => some (inside e outer)
    | none, some f, b :: outer => between? (b.add f) outer l
    | none, _, _ => none

def form? : Outline → Option NodeForm
  | inside d [] => d.form?
  | _ => none

def run (o : Outline) (ls : List Lexeme) : Option Outline := ls.foldlM next? o

@[simp] theorem run_nil (o : Outline) : o.run [] = some o := rfl

@[simp] theorem run_cons (o : Outline) (l : Lexeme) (ls : List Lexeme) :
    o.run (l :: ls) = (o.next? l).bind (·.run ls) := rfl

@[simp] theorem run_append (o : Outline) (ls ms : List Lexeme) :
    o.run (ls ++ ms) = (o.run ls).bind (·.run ms) := List.foldlM_append

variable {l : Lexeme} {ls : List Lexeme} {o p : Outline} {d e : Draft}

theorem lexemes_opening (h : opening? l = some d) : d.lexemes = [l] := by
  obtain ⟨token, span⟩ := l
  cases token <;> cases h <;> rfl

theorem lexemes_between {b : OpenBody} {outer : List OpenBody} (h : between? b outer l = some o) :
    o.lexemes = enclosingLexemes outer ++ b.lexemes ++ [l] := by
  unfold between? at h
  split at h
  · rename_i d hd
    cases h
    simp [lexemes, enclosingLexemes, lexemes_opening hd]
  · obtain ⟨e, he, rfl⟩ := Option.map_eq_some_iff.mp h
    simp [lexemes, Draft.lexemes_next he]

theorem lexemes_next (h : o.next? l = some p) : p.lexemes = o.lexemes ++ [l] := by
  unfold next? at h
  split at h
  · obtain ⟨d, hd, rfl⟩ := Option.map_eq_some_iff.mp h
    simp [lexemes, enclosingLexemes, lexemes_opening hd]
  · rw [lexemes_between h]
    rfl
  · split at h
    · rename_i e he
      cases h
      simp [lexemes, Draft.lexemes_next he]
    · rename_i f hf
      rw [lexemes_between h, OpenBody.lexemes_add, Draft.lexemes_form hf]
      simp [lexemes, enclosingLexemes]
    · cases h

theorem lexemes_run (h : o.run ls = some p) : p.lexemes = o.lexemes ++ ls := by
  induction ls generalizing o with
  | nil =>
    cases h
    simp
  | cons l ls ih =>
    obtain ⟨q, hq, hrun⟩ := Option.bind_eq_some_iff.mp h
    rw [ih hrun, lexemes_next hq]
    simp

theorem completes (o : Outline) :
    ∃ (f : NodeForm) (rest : List Lexeme), f.lexemes = o.lexemes ++ rest := by
  cases o with
  | nothing => exact ⟨.bare ⟨0, 0⟩ none none, _, rfl⟩
  | inside d outer =>
    induction outer generalizing d with
    | nil => exact d.completes
    | cons b outer ih =>
      obtain ⟨f, rest, hf⟩ := d.completes
      obtain ⟨g, more, hg⟩ := ih (.body (b.add f))
      refine ⟨g, rest ++ more, ?_⟩
      simp [hg, hf, lexemes, enclosingLexemes]

theorem next_inside (h : d.next? l = some e) (outer : List OpenBody) :
    (inside d outer).next? l = some (inside e outer) := by
  cases d with
  | body b =>
    obtain ⟨token, span⟩ := l
    cases token <;> cases h
    rfl
  | _ => simp [next?, h]

theorem run_inside (h : d.run ls = some e) (outer : List OpenBody) :
    (inside d outer).run ls = some (inside e outer) := by
  induction ls generalizing d with
  | nil =>
    cases h
    rfl
  | cons l ls ih =>
    obtain ⟨c, hc, hrun⟩ := Option.bind_eq_some_iff.mp h
    rw [run_cons, next_inside hc]
    exact ih hrun

def Opens (o : Outline) (outer : List OpenBody) : Prop :=
  ∀ l d, opening? l = some d → o.next? l = some (inside d outer)

/-- A child of `b` may start or the brace of `b` be closed. -/
def Between (o : Outline) (b : OpenBody) (outer : List OpenBody) : Prop :=
  o.Opens (b :: outer) ∧ ∀ span,
    o.next? ⟨.braceClose, span⟩ = some (inside (.closed b span) outer)

theorem opens_nothing : nothing.Opens [] := by
  intro l d hd
  simp [next?, hd]

theorem between_body (b : OpenBody) (outer : List OpenBody) :
    (inside (.body b) outer).Between b outer := by
  refine ⟨fun l d hd => ?_, fun span => rfl⟩
  simp [next?, between?, hd]

theorem between_form {f : NodeForm} (h : d.form? = some f) (b : OpenBody) (outer : List OpenBody) :
    (inside d (b :: outer)).Between (b.add f) outer := by
  have hnext : ∀ {token}, token = .node ∨ token = .text ∨ token = .braceClose → ∀ span,
      (inside d (b :: outer)).next? ⟨token, span⟩ = between? (b.add f) outer ⟨token, span⟩ := by
    intro token ht span
    have hnone := Draft.next_complete h ht span
    cases d with
    | body => cases h
    | _ => simp [next?, hnone, h]
  constructor
  · rintro ⟨token, span⟩ e he
    rw [hnext (by cases token <;> simp_all [opening?]), between?, he]
  · intro span
    rw [hnext (by simp)]
    rfl

mutual

theorem run_form : ∀ (f : NodeForm) {o : Outline} {outer : List OpenBody}, o.Opens outer →
    ∃ d, o.run f.lexemes = some (inside d outer) ∧ d.form? = some f
  | .bare keyword name block, o, outer, ho => by
    refine ⟨.withBlock (.container keyword name) block, ?_, Draft.form_withBlock _ _⟩
    rw [NodeForm.lexemes, run_cons, ho ⟨.node, keyword⟩ _ rfl]
    exact run_inside (Draft.run_container keyword name block) outer
  | .text keyword name content block, o, outer, ho => by
    refine ⟨.withBlock (.text keyword name content) block, ?_, Draft.form_withBlock _ _⟩
    rw [NodeForm.lexemes, run_cons, ho ⟨.text, keyword⟩ _ rfl]
    exact run_inside (Draft.run_text keyword name content block) outer
  | .braced keyword name block opening children closing, o, outer, ho => by
    have hfront := run_inside (Draft.run_container keyword name block) outer
    have hbrace := next_inside (Draft.next_brace keyword name block opening) outer
    obtain ⟨p, hrun, hp⟩ :=
      run_forms children (between_body ⟨keyword, name, block, opening, []⟩ outer)
    refine ⟨.closed ⟨keyword, name, block, opening, children⟩ closing, ?_, rfl⟩
    rw [run_append] at hfront
    obtain ⟨q, hq, hfront⟩ := Option.bind_eq_some_iff.mp hfront
    simp [NodeForm.lexemes, ho ⟨.node, keyword⟩ _ rfl, hq, hfront, hbrace, hrun, hp.2]

theorem run_forms : ∀ (fs : List NodeForm) {o : Outline} {b : OpenBody} {outer : List OpenBody},
    o.Between b outer → ∃ p : Outline, o.run (NodeForm.allLexemes fs) = some p ∧
      p.Between { b with children := b.children ++ fs } outer
  | [], o, b, outer, ho => ⟨o, rfl, by simpa using ho⟩
  | f :: fs, o, b, outer, ho => by
    obtain ⟨d, hrun, hd⟩ := run_form f ho.1
    obtain ⟨p, hmore, hp⟩ := run_forms fs (between_form hd b outer)
    refine ⟨p, ?_, ?_⟩
    · simp [NodeForm.allLexemes, hrun, hmore]
    · simpa [OpenBody.add] using hp

end

end Outline

def derive? (ls : List Lexeme) : Option NodeForm := (Outline.nothing.run ls).bind Outline.form?

theorem derive?_eq_some {ls : List Lexeme} {f : NodeForm} :
    derive? ls = some f ↔ f.lexemes = ls := by
  constructor
  · intro h
    obtain ⟨o, hrun, ho⟩ := Option.bind_eq_some_iff.mp h
    match o, ho with
    | .inside d [], ho =>
      have hls := Outline.lexemes_run hrun
      rw [Draft.lexemes_form ho]
      simpa [Outline.lexemes, Outline.enclosingLexemes] using hls
  · rintro rfl
    obtain ⟨d, hrun, hd⟩ := Outline.run_form f Outline.opens_nothing
    simp [derive?, hrun, Outline.form?, hd]

theorem NodeForm.lexemes_injective : Function.Injective NodeForm.lexemes := by
  intro f g h
  have hf := derive?_eq_some.mpr h
  rw [derive?_eq_some.mpr rfl] at hf
  exact (Option.some.inj hf).symm

end Flexbox.Fixture
