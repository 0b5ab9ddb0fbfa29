import Flexbox.Proofs.Fixture.Outlines

namespace Flexbox.Fixture

def Placeless {β : Type} (lexemes : β → List Lexeme) : Prop :=
  ∀ x ls, ls.map Lexeme.token = (lexemes x).map Lexeme.token → ∃ y, lexemes y = ls

theorem placeless_optional {β : Type} {lexeme : β → Lexeme}
    (h : ∀ x span, ∃ y, lexeme y = ⟨(lexeme x).token, span⟩) :
    Placeless fun x : Option β => x.toList.map lexeme := by
  intro x ls hls
  cases x with
  | none => exact ⟨none, (List.map_eq_nil_iff.mp hls).symm⟩
  | some x =>
    obtain ⟨⟨token, span⟩, rest, rfl, rfl, hrest⟩ := List.map_eq_cons_iff.mp hls
    obtain rfl := List.map_eq_nil_iff.mp hrest
    obtain ⟨y, hy⟩ := h x span
    exact ⟨some y, congrArg (fun l => [l]) hy⟩

theorem placeless_name : Placeless nameLexemes :=
  placeless_optional fun name span => ⟨⟨name.item, span⟩, rfl⟩

theorem placeless_mark (token : Token) : Placeless (markLexemes token) :=
  placeless_optional fun _ span => ⟨span, rfl⟩

theorem placeless_value : Placeless ValueForm.lexemes := by
  intro v ls h
  cases v with
  | number m x percent =>
    simp only [ValueForm.lexemes, List.map_append, List.map_cons] at h
    obtain ⟨front, rest, rfl, hfront, hrest⟩ := List.map_eq_append_iff.mp h
    obtain ⟨⟨token, span⟩, back, rfl, rfl, hback⟩ := List.map_eq_cons_iff.mp hrest
    obtain ⟨m, rfl⟩ := placeless_mark .minus m front hfront
    obtain ⟨percent, rfl⟩ := placeless_mark .percent percent back hback
    exact ⟨.number m ⟨x.item, span⟩ percent, rfl⟩
  | word name =>
    obtain ⟨⟨token, span⟩, rest, rfl, rfl, hrest⟩ := List.map_eq_cons_iff.mp h
    obtain rfl := List.map_eq_nil_iff.mp hrest
    exact ⟨.word ⟨name.item, span⟩, rfl⟩
  | text _ =>
    obtain ⟨⟨token, span⟩, rest, rfl, rfl, hrest⟩ := List.map_eq_cons_iff.mp h
    obtain rfl := List.map_eq_nil_iff.mp hrest
    exact ⟨.text span, rfl⟩

theorem placeless_property : Placeless PropertyForm.lexemes := by
  intro p ls h
  obtain ⟨⟨token, here⟩, rest, rfl, rfl, hrest⟩ := List.map_eq_cons_iff.mp h
  obtain ⟨⟨token, colon⟩, back, rfl, rfl, hback⟩ := List.map_eq_cons_iff.mp hrest
  obtain ⟨v, rfl⟩ := placeless_value p.value back hback
  exact ⟨⟨⟨p.key.item, here⟩, colon, v⟩, rfl⟩

theorem placeless_list : Placeless ListForm.lexemes := by
  rintro ⟨first, more⟩ ls h
  have hmore : Placeless fun more : List (Span × PropertyForm) =>
      more.flatMap fun q => (⟨.comma, q.1⟩ : Lexeme) :: q.2.lexemes := by
    intro more
    induction more with
    | nil => exact fun ls h => ⟨[], (List.map_eq_nil_iff.mp h).symm⟩
    | cons q more ih =>
      intro ls h
      simp only [List.flatMap_cons, List.cons_append, List.map_cons, List.map_append] at h
      obtain ⟨⟨token, comma⟩, rest, rfl, rfl, hrest⟩ := List.map_eq_cons_iff.mp h
      obtain ⟨front, back, rfl, hfront, hback⟩ := List.map_eq_append_iff.mp hrest
      obtain ⟨p, rfl⟩ := placeless_property q.2 front hfront
      obtain ⟨more, rfl⟩ := ih back hback
      exact ⟨(comma, p) :: more, rfl⟩
  rw [ListForm.lexemes, List.map_append] at h
  obtain ⟨front, back, rfl, hfront, hback⟩ := List.map_eq_append_iff.mp h
  obtain ⟨p, rfl⟩ := placeless_property first front hfront
  obtain ⟨more, rfl⟩ := hmore more back hback
  exact ⟨⟨p, more⟩, rfl⟩

theorem placeless_block : Placeless BlockForm.lexemes := by
  rintro ⟨opening, content, closing⟩ ls h
  have hcontent : Placeless BlockForm.contentLexemes := by
    intro content ls h
    rcases content with - | ⟨list, comma⟩
    · exact ⟨none, (List.map_eq_nil_iff.mp h).symm⟩
    · rw [BlockForm.contentLexemes, List.map_append] at h
      obtain ⟨front, back, rfl, hfront, hback⟩ := List.map_eq_append_iff.mp h
      obtain ⟨list, rfl⟩ := placeless_list list front hfront
      obtain ⟨comma, rfl⟩ := placeless_mark .comma comma back hback
      exact ⟨some (list, comma), rfl⟩
  simp only [BlockForm.lexemes, List.map_cons, List.map_append] at h
  obtain ⟨⟨token, opening⟩, rest, rfl, rfl, hrest⟩ := List.map_eq_cons_iff.mp h
  obtain ⟨front, back, rfl, hfront, hback⟩ := List.map_eq_append_iff.mp hrest
  obtain ⟨⟨token, closing⟩, none, rfl, rfl, hnone⟩ := List.map_eq_cons_iff.mp hback
  obtain rfl := List.map_eq_nil_iff.mp hnone
  obtain ⟨content, rfl⟩ := hcontent content front hfront
  exact ⟨⟨opening, content, closing⟩, rfl⟩

theorem placeless_blockOption : Placeless blockLexemes := by
  intro block ls h
  cases block with
  | none => exact ⟨none, (List.map_eq_nil_iff.mp h).symm⟩
  | some block =>
    obtain ⟨block, rfl⟩ := placeless_block block ls h
    exact ⟨some block, rfl⟩

namespace NodeForm

mutual

theorem exists_lexemes_eq : ∀ (f : NodeForm) (ls : List Lexeme),
    ls.map Lexeme.token = f.lexemes.map Lexeme.token → ∃ g : NodeForm, g.lexemes = ls
  | bare keyword name block, ls, h => by
    simp only [lexemes, List.map_cons, List.map_append] at h
    obtain ⟨⟨token, keyword⟩, rest, rfl, rfl, hrest⟩ := List.map_eq_cons_iff.mp h
    obtain ⟨front, back, rfl, hfront, hback⟩ := List.map_eq_append_iff.mp hrest
    obtain ⟨name, rfl⟩ := placeless_name name front hfront
    obtain ⟨block, rfl⟩ := placeless_blockOption block back hback
    exact ⟨bare keyword name block, by rw [lexemes]⟩
  | text keyword name content block, ls, h => by
    simp only [lexemes, List.map_cons, List.map_append] at h
    obtain ⟨⟨token, keyword⟩, rest, rfl, rfl, hrest⟩ := List.map_eq_cons_iff.mp h
    obtain ⟨front, back, rfl, hfront, hback⟩ := List.map_eq_append_iff.mp hrest
    obtain ⟨⟨token, span⟩, tail, rfl, rfl, htail⟩ := List.map_eq_cons_iff.mp hback
    obtain ⟨name, rfl⟩ := placeless_name name front hfront
    obtain ⟨block, rfl⟩ := placeless_blockOption block tail htail
    exact ⟨text keyword name ⟨content.item, span⟩ block, by rw [lexemes]⟩
  | braced keyword name block opening children closing, ls, h => by
    simp only [lexemes, List.map_cons, List.map_append] at h
    obtain ⟨⟨token, keyword⟩, rest, rfl, rfl, hrest⟩ := List.map_eq_cons_iff.mp h
    obtain ⟨front, back, rfl, hfront, hback⟩ := List.map_eq_append_iff.mp hrest
    obtain ⟨middle, braces, rfl, hmiddle, hbraces⟩ := List.map_eq_append_iff.mp hback
    obtain ⟨⟨token, opening⟩, inner, rfl, rfl, hinner⟩ := List.map_eq_cons_iff.mp hbraces
    obtain ⟨body, last, rfl, hbody, hlast⟩ := List.map_eq_append_iff.mp hinner
    obtain ⟨⟨token, closing⟩, none, rfl, rfl, hnone⟩ := List.map_eq_cons_iff.mp hlast
    obtain rfl := List.map_eq_nil_iff.mp hnone
    obtain ⟨name, rfl⟩ := placeless_name name front hfront
    obtain ⟨block, rfl⟩ := placeless_blockOption block middle hmiddle
    obtain ⟨children, rfl⟩ := exists_allLexemes_eq children body hbody
    exact ⟨braced keyword name block opening children closing, by rw [lexemes]⟩

theorem exists_allLexemes_eq : ∀ (fs : List NodeForm) (ls : List Lexeme),
    ls.map Lexeme.token = (allLexemes fs).map Lexeme.token →
      ∃ gs : List NodeForm, allLexemes gs = ls
  | [], ls, h => ⟨[], (List.map_eq_nil_iff.mp h).symm⟩
  | f :: fs, ls, h => by
    rw [allLexemes, List.map_append] at h
    obtain ⟨front, back, rfl, hfront, hback⟩ := List.map_eq_append_iff.mp h
    obtain ⟨g, rfl⟩ := exists_lexemes_eq f front hfront
    obtain ⟨gs, rfl⟩ := exists_allLexemes_eq fs back hback
    exact ⟨g :: gs, by rw [allLexemes]⟩

end

end NodeForm

theorem sentence_iff {ls : List Lexeme} :
    Sentence (ls.map Lexeme.token) ↔ ∃ f : NodeForm, f.lexemes = ls := by
  constructor
  · rintro ⟨f, hf⟩
    exact f.exists_lexemes_eq ls hf.symm
  · rintro ⟨f, rfl⟩
    exact ⟨f, rfl⟩

theorem viable_iff {ls : List Lexeme} :
    Viable (ls.map Lexeme.token) ↔ ∃ o, Outline.nothing.run ls = some o := by
  constructor
  · rintro ⟨rest, hrest⟩
    have hall : ls.map Lexeme.token ++ rest =
        (ls ++ rest.map fun token => (⟨token, ⟨0, 0⟩⟩ : Lexeme)).map Lexeme.token := by
      simp [Function.comp_def]
    rw [hall] at hrest
    obtain ⟨f, hf⟩ := sentence_iff.mp hrest
    obtain ⟨d, hrun, -⟩ := Outline.run_form f Outline.opens_nothing
    rw [hf, Outline.run_append] at hrun
    obtain ⟨o, ho, -⟩ := Option.bind_eq_some_iff.mp hrun
    exact ⟨o, ho⟩
  · rintro ⟨o, ho⟩
    obtain ⟨f, rest, hf⟩ := o.completes
    refine ⟨rest.map Lexeme.token, f, ?_⟩
    rw [hf, Outline.lexemes_run ho]
    simp [Outline.lexemes]

end Flexbox.Fixture
