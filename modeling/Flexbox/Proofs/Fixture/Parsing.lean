import Flexbox.Proofs.Fixture.Readers
import Flexbox.Proofs.Fixture.Sentences

namespace Flexbox.Fixture

theorem Outline.run_cases (o : Outline) (ls : List Lexeme) :
    (∃ p, o.run ls = some p) ∨ ∃ before l after p, ls = before ++ l :: after ∧
      o.run before = some p ∧ p.next? l = none := by
  induction ls generalizing o with
  | nil => exact Or.inl ⟨o, rfl⟩
  | cons l ls ih =>
    cases hn : o.next? l with
    | none => exact Or.inr ⟨[], l, ls, o, rfl, rfl, hn⟩
    | some q =>
      rcases ih q with ⟨p, hp⟩ | ⟨before, m, after, p, rfl, hp, hm⟩
      · exact Or.inl ⟨p, by simp [hn, hp]⟩
      · exact Or.inr ⟨l :: before, m, after, p, rfl, by simp [hn, hp], hm⟩

variable {o p : Outline} {ls before after : List Lexeme} {l : Lexeme} {source : String}

theorem readAll_run (length stop : Nat) (h : o.run ls = some p) :
    readAll length stop o.reading ls = match p.form? with
      | some f => .ok f.declaration
      | none => .error ⟨⟨length, (ls.getLast?.map fun l => l.span.stop).getD stop⟩, none,
          p.reading.expected⟩ := by
  induction ls generalizing o stop with
  | nil =>
    cases h
    rw [readAll, Outline.finish_reading]
    cases p.form? <;> rfl
  | cons l ls ih =>
    obtain ⟨q, hq, hrun⟩ := Option.bind_eq_some_iff.mp h
    simp only [readAll, Outline.read_reading, hq, Option.map_some, ih l.span.stop hrun]
    cases ls <;> simp [List.getLast?_cons]

theorem readAll_stuck (length stop : Nat) (h : o.run before = some p) (hl : p.next? l = none) :
    readAll length stop o.reading (before ++ l :: after) =
      .error ⟨l.span, some l.token, p.reading.expected⟩ := by
  induction before generalizing o stop with
  | nil =>
    cases h
    simp [readAll, Outline.read_reading, hl]
  | cons m before ih =>
    obtain ⟨q, hq, hrun⟩ := Option.bind_eq_some_iff.mp h
    simp [readAll, Outline.read_reading, hq, ih m.span.stop hrun]

theorem parse_eq_ok {d : Declaration} :
    parse source = .ok d ↔ ∃ f : NodeForm, f.lexemes = lex source ∧ f.declaration = d := by
  rw [parse, show Reading.nothing = Outline.nothing.reading from rfl]
  rcases Outline.nothing.run_cases (lex source) with ⟨p, hp⟩ | ⟨before, l, after, p, he, hp, hl⟩
  · have hform : ∀ f : NodeForm, f.lexemes = lex source ↔ p.form? = some f := by
      intro f
      rw [← derive?_eq_some, derive?, hp]
      rfl
    rw [readAll_run _ _ hp]
    simp only [hform]
    cases p.form? <;> simp
  · have hnone : ∀ f : NodeForm, f.lexemes ≠ lex source := by
      intro f hf
      rw [← derive?_eq_some, derive?, he, Outline.run_append, hp] at hf
      simp [hl] at hf
    rw [he, readAll_stuck _ _ hp hl, ← he]
    simp [hnone]

theorem exists_parse_eq_ok :
    (∃ d, parse source = .ok d) ↔ Sentence ((lex source).map Lexeme.token) := by
  simp only [sentence_iff, parse_eq_ok]
  constructor
  · rintro ⟨_, f, hf, -⟩
    exact ⟨f, hf⟩
  · rintro ⟨f, hf⟩
    exact ⟨_, f, hf, rfl⟩

/-- The parser accepts exactly the texts whose tokens the grammar derives. The derivation is then
the only one, and what it says is returned. -/
theorem parse_accepts_exactly_sentences (source : String) :
    ((∃ d, parse source = .ok d) ↔ Sentence ((lex source).map Lexeme.token)) ∧
      ∀ d, parse source = .ok d ↔
        ∃ f : NodeForm, f.declaration = d ∧ ∀ g : NodeForm, g.lexemes = lex source ↔ g = f := by
  refine ⟨exists_parse_eq_ok, fun d => ?_⟩
  rw [parse_eq_ok]
  constructor
  · rintro ⟨f, hf, hd⟩
    refine ⟨f, hd, fun g => ⟨fun hg => ?_, fun hg => hg ▸ hf⟩⟩
    exact NodeForm.lexemes_injective (hg.trans hf.symm)
  · rintro ⟨f, hd, hf⟩
    exact ⟨f, (hf f).mpr rfl, hd⟩

theorem not_viable_of_stuck (h : Outline.nothing.run before = some p) (hl : p.next? l = none) :
    ¬ Viable ((before ++ [l]).map Lexeme.token) := by
  rw [viable_iff]
  rintro ⟨o, ho⟩
  rw [Outline.run_append, h] at ho
  simp [hl] at ho

theorem parse_error {source : String} {e : SyntaxError} (h : parse source = .error e) :
    (∃ before l after p, lex source = before ++ l :: after ∧
        Outline.nothing.run before = some p ∧ p.next? l = none ∧ e.span = l.span ∧
        e.message = "Unexpected " ++ l.token.describe) ∨
      ∃ p, Outline.nothing.run (lex source) = some p ∧ e.message = "Unexpected end of input" ∧
        e.span = ⟨source.utf8ByteSize,
          ((lex source).getLast?.map fun t => t.span.stop).getD source.utf8ByteSize⟩ := by
  rw [parse, show Reading.nothing = Outline.nothing.reading from rfl] at h
  rcases Outline.nothing.run_cases (lex source) with ⟨p, hp⟩ | ⟨before, l, after, p, he, hp, hl⟩
  · rw [readAll_run _ _ hp] at h
    cases hf : p.form? with
    | some f => simp [hf] at h
    | none =>
      simp only [hf, Except.error.injEq] at h
      subst h
      exact Or.inr ⟨p, hp, rfl, rfl⟩
  · rw [he, readAll_stuck _ _ hp hl] at h
    obtain rfl := Except.error.inj h
    exact Or.inl ⟨before, l, after, p, he, hp, hl, rfl, rfl⟩

/-- A syntax error stands at the first token with which no sentence can go on, and names it. If
there is no such token the end of input is reported, from the end of the source back to the end of
the last token: that is the end of the source alone only if nothing stands behind the last token. -/
theorem syntax_error_at_first_misfit (source : String) {e : SyntaxError}
    (h : parse source = .error e) :
    (∃ before t after, lex source = before ++ t :: after ∧ Viable (before.map Lexeme.token) ∧
        ¬ Viable ((before ++ [t]).map Lexeme.token) ∧ e.span = t.span ∧
        e.message = "Unexpected " ++ t.token.describe) ∨
      (Viable ((lex source).map Lexeme.token) ∧ ¬ Sentence ((lex source).map Lexeme.token) ∧
        e.message = "Unexpected end of input" ∧
        e.span = ⟨source.utf8ByteSize,
          ((lex source).getLast?.map fun t => t.span.stop).getD source.utf8ByteSize⟩ ∧
        (e.span = ⟨source.utf8ByteSize, source.utf8ByteSize⟩ ↔
          ∀ t ∈ (lex source).getLast?, t.span.stop = source.utf8ByteSize)) := by
  have hno : ¬ Sentence ((lex source).map Lexeme.token) := by
    rw [← exists_parse_eq_ok, h]
    simp
  rcases parse_error h with ⟨before, l, after, p, he, hp, hl, hend⟩ | ⟨p, hp, hmessage, hspan⟩
  · exact Or.inl
      ⟨before, l, after, he, viable_iff.mpr ⟨p, hp⟩, not_viable_of_stuck hp hl, hend⟩
  · refine Or.inr ⟨viable_iff.mpr ⟨p, hp⟩, hno, hmessage, hspan, ?_⟩
    rw [hspan]
    cases (lex source).getLast? <;> simp

theorem exists_error_of_report (source : String) (span : Span) (message : String)
    (h : (match parse source with
      | .ok _ => none
      | .error e => some (e.span, e.message)) = some (span, message)) :
    ∃ e, parse source = .error e ∧ e.span = span ∧ e.message = message := by
  cases he : parse source with
  | ok d => simp [he] at h
  | error e => exact ⟨e, rfl, by simpa [he] using h⟩

/-- The keyword of a second root is where no sentence goes on. -/
theorem syntax_error_at_first_misfit_second_root :
    ∃ e, parse "node a node b" = .error e ∧ ∃ before t after,
      lex "node a node b" = before ++ t :: after ∧ Viable (before.map Lexeme.token) ∧
        ¬ Viable ((before ++ [t]).map Lexeme.token) ∧ e.span = t.span ∧ t.span = ⟨7, 11⟩ := by
  obtain ⟨e, he, hspan, hmessage⟩ := exists_error_of_report "node a node b" ⟨7, 11⟩
    "Unexpected keyword 'node'" (by decide +kernel)
  rcases syntax_error_at_first_misfit _ he with
    ⟨before, t, after, hlex, hv, hn, ht, -⟩ | ⟨-, -, hend, -⟩
  · exact ⟨e, he, before, t, after, hlex, hv, hn, ht, ht ▸ hspan⟩
  · simp [hmessage] at hend

/-- With a blank behind the last token the span that is reported ends before it starts. -/
theorem missing_rest_reported_backwards :
    ∃ e, parse "node [width: 1, " = .error e ∧ e.message = "Unexpected end of input" ∧
      e.span = ⟨16, 15⟩ ∧ e.span ≠ ⟨16, 16⟩ := by
  obtain ⟨e, he, hspan, hmessage⟩ := exists_error_of_report "node [width: 1, " ⟨16, 15⟩
    "Unexpected end of input" (by decide +kernel)
  exact ⟨e, he, hmessage, hspan, by simp [hspan]⟩

end Flexbox.Fixture
