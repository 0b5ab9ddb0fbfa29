import Flexbox.Run
import Flexbox.Proofs.Fixture.Correspondence
import Flexbox.Proofs.Fixture.Respacing
import Mathlib

namespace Flexbox

open Fixture

theorem sum_lineLengths (cs : List Char) (n : Nat) : (lineLengths cs n).sum = n + cs.length := by
  fun_induction lineLengths cs n <;> simp_all <;> omega

theorem lineLengths_eq_nil {cs : List Char} {n : Nat} :
    lineLengths cs n = [] ↔ cs = [] ∧ n = 0 := by
  fun_induction lineLengths cs n <;> simp_all

variable {lengths : List Nat} {line offset : Nat} {place : Nat × Nat}

theorem isSome_position? :
    (position? lengths line offset).isSome ↔ lengths ≠ [] ∧ offset ≤ lengths.sum := by
  fun_induction position? lengths line offset <;> simp_all <;> omega

/-- A place gives back the number of characters before it: those of the lines above and those to its
left. -/
theorem offset_of_position? (h : position? lengths line offset = some place) :
    line ≤ place.1 ∧ offset + 1 = (lengths.take (place.1 - line)).sum + place.2 := by
  fun_induction position? lengths line offset with
  | case1 => cases h
  | case2 length line offset hle =>
    obtain rfl := Option.some.inj h
    simp
  | case3 => cases h
  | case4 length rest line offset hmore hlt =>
    obtain rfl := Option.some.inj h
    simp
  | case5 length rest line offset hmore hge ih =>
    obtain ⟨hline, hoffset⟩ := ih h
    obtain ⟨k, hk⟩ := Nat.exists_eq_add_of_le hline
    rw [show place.1 - (line + 1) = k by omega] at hoffset
    rw [show place.1 - line = k + 1 by omega, List.take_succ_cons, List.sum_cons]
    omega

/-- Line and column of the character that a number of others stand before. -/
def placeAt (source : String) (k : Nat) : Option (Nat × Nat) :=
  position? (lineLengths source.toList 0) 1 k

variable {source : String} {span : Span}

theorem isSome_placeAt {k : Nat} :
    (placeAt source k).isSome ↔ source ≠ "" ∧ k ≤ source.length := by
  rw [placeAt, isSome_position?, sum_lineLengths, ne_eq, lineLengths_eq_nil, String.length_toList]
  simp

theorem placeAt_injective {j k : Nat} (h : placeAt source j = some place)
    (h' : placeAt source k = some place) : j = k := by
  have hj := (offset_of_position? h).2
  have hk := (offset_of_position? h').2
  omega

theorem place?_eq_placeAt (hne : source ≠ "") {k : Nat} (hk : k ≤ source.length) :
    place? source span = placeAt source k ↔ span.start = k ∧ span.stop ≤ source.length + 1 := by
  obtain ⟨place, hplace⟩ := Option.isSome_iff_exists.mp (isSome_placeAt.mpr ⟨hne, hk⟩)
  have hlast : (placeAt source (max span.start (span.stop - 1))).isSome ↔
      span.start ≤ source.length ∧ span.stop ≤ source.length + 1 := by
    rw [isSome_placeAt]
    simp only [hne, ne_eq, not_false_eq_true, true_and]
    omega
  change ((placeAt source span.start).bind fun place =>
    (placeAt source (max span.start (span.stop - 1))).bind fun _ => some place) = _ ↔ _
  rw [hplace, Option.bind_eq_some_iff]
  constructor
  · rintro ⟨place', hstart, hrest⟩
    obtain ⟨_, hstop, hsame⟩ := Option.bind_eq_some_iff.mp hrest
    obtain rfl := Option.some.inj hsame
    exact ⟨placeAt_injective hstart hplace, (hlast.mp (hstop ▸ rfl)).2⟩
  · rintro ⟨rfl, hstop⟩
    obtain ⟨_, hfound⟩ := Option.isSome_iff_exists.mp (hlast.mpr ⟨hk, hstop⟩)
    exact ⟨place, hplace, by rw [hfound]; rfl⟩

namespace Fixture

theorem length_le_byteLength (cs : List Char) : cs.length ≤ byteLength cs := by
  induction cs with
  | nil => exact Nat.le_refl 0
  | cons c cs ih =>
    have := c.utf8Size_pos
    simp only [byteLength, List.length_cons]
    omega

theorem byteLength_eq_length {cs : List Char} :
    byteLength cs = cs.length ↔ ∀ c ∈ cs, c.utf8Size = 1 := by
  induction cs with
  | nil => simp [byteLength]
  | cons c cs ih =>
    have := c.utf8Size_pos
    have := length_le_byteLength cs
    rw [List.forall_mem_cons, ← ih, byteLength, List.length_cons]
    omega

theorem byteLength_toList (source : String) : byteLength source.toList = source.utf8ByteSize := by
  rw [byteLength_eq, String.utf8Len_toList]

namespace Property

variable (p : Property)

/-- An error, if there is one, is about the key of the property or about its value. -/
def Blamed (e : Option PropertyError) : Prop :=
  ∀ x ∈ e, x.span = p.key.span ∨ x.span = p.value.span

@[simp] theorem blamed_ok {β : Type} (b : β) : p.Blamed (fault? (.ok b)) := nofun

@[simp] theorem blamed_unknown {β : Type} : p.Blamed (fault? (.error p.unknown : Except _ β)) := by
  rintro _ ⟨⟩
  exact Or.inl rfl

@[simp] theorem blamed_invalid {β : Type} (wanted : Wanted) :
    p.Blamed (fault? (.error (p.invalid wanted) : Except _ β)) := by
  rintro _ ⟨⟩
  exact Or.inr rfl

theorem blamed_keyword {κ : Type} [Keyword κ] : p.Blamed (fault? (p.keyword : Except _ κ)) := by
  unfold keyword
  split
  · split <;> simp
  · simp

theorem blamed_number : p.Blamed (fault? p.number) := by
  unfold number
  split <;> simp

theorem blamed_flag : p.Blamed (fault? p.flag) := by
  unfold flag
  split <;> simp

theorem blamed_length : p.Blamed (fault? p.length) := by
  unfold length
  split <;> simp

theorem blamed_lengthOrAuto : p.Blamed (fault? p.lengthOrAuto) := by
  unfold lengthOrAuto
  split <;> simp

theorem blamed_applyEdges (s : Style Float32) (group : String) (edge : Edge) :
    p.Blamed (fault? (p.applyEdges s group edge)) := by
  unfold applyEdges
  split <;> simp only [fault?_bind_pure, blamed_lengthOrAuto, blamed_length, blamed_number,
    blamed_unknown]

theorem blamed_applyEdge (s : Style Float32) : p.Blamed (fault? (p.applyEdge s)) := by
  unfold applyEdge
  split
  · simp only [fault?_bind_pure, blamed_length]
  · dsimp only
    split
    · exact p.blamed_applyEdges s _ _
    · split
      · exact p.blamed_applyEdges s _ _
      · exact p.blamed_unknown

theorem blamed_complaint : p.Blamed p.complaint := by
  unfold complaint
  split
  · exact p.blamed_flag
  · unfold apply
    split <;> simp only [fault?_bind_pure, blamed_keyword, blamed_number, blamed_length,
      blamed_lengthOrAuto, blamed_applyEdge]

end Property

def Declaration.spans (d : Declaration) : List Span :=
  d.name.toList.map Located.span ++
    d.properties.flatMap fun p => [p.item.key.span, p.item.value.span]

theorem complaints_span {seen : List String} {ds : List Declaration} {e : BuildError}
    (h : e ∈ complaints seen ds) (hspan : e.span? = some span) : ∃ d ∈ ds, span ∈ d.spans := by
  induction ds generalizing seen with
  | nil => cases h
  | cons d ds ih =>
    rw [complaints, List.mem_append] at h
    rcases h with h | h
    · refine ⟨d, List.mem_cons_self, ?_⟩
      rw [Declaration.faults, List.mem_append] at h
      rcases h with h | h
      · obtain ⟨name, hname, rfl⟩ := List.mem_map.mp h
        obtain rfl := Option.some.inj hspan
        exact List.mem_append_left _ (List.mem_map_of_mem (List.mem_filter.mp hname).1)
      · obtain ⟨error, herror, rfl⟩ := List.mem_map.mp h
        obtain ⟨p, hp, hcomplaint⟩ := List.mem_filterMap.mp herror
        obtain rfl := Option.some.inj hspan
        refine List.mem_append_right _ (List.mem_flatMap.mpr ⟨p, hp, ?_⟩)
        simpa using p.item.blamed_complaint error hcomplaint
    · obtain ⟨d', hd', hs⟩ := ih h
      exact ⟨d', List.mem_cons_of_mem d hd', hs⟩

/-- The span starts where one of the lexemes does. -/
def StartsIn (ls : List Lexeme) (span : Span) : Prop := ∃ l ∈ ls, l.span.start = span.start

theorem StartsIn.mono {ls ms : List Lexeme} (h : StartsIn ls span) (hsub : ls ⊆ ms) :
    StartsIn ms span := by
  obtain ⟨l, hl, hstart⟩ := h
  exact ⟨l, hsub hl, hstart⟩

theorem startsIn_across {ls : List Lexeme} (h : ls ≠ []) : StartsIn ls (.across ls) := by
  obtain ⟨l, ls, rfl⟩ := List.exists_cons_of_ne_nil h
  exact ⟨l, List.mem_cons_self, rfl⟩

theorem startsIn_property (p : PropertyForm) :
    StartsIn p.lexemes p.key.span ∧ StartsIn p.lexemes (.across p.value.lexemes) := by
  refine ⟨⟨_, List.mem_cons_self, rfl⟩, (startsIn_across p.value.lexemes_ne_nil).mono ?_⟩
  intro l hl
  exact List.mem_cons_of_mem _ (List.mem_cons_of_mem _ hl)

theorem exists_property_of_mem {block : Option BlockForm} {p : Located Property}
    (h : p ∈ blockProperties block) :
    ∃ q : PropertyForm, q.property = p ∧ q.lexemes ⊆ blockLexemes block := by
  obtain - | ⟨opening, - | ⟨⟨first, more⟩, comma⟩, closing⟩ := block
  · cases h
  · cases h
  · rcases List.mem_cons.mp h with rfl | h
    · refine ⟨first, rfl, fun l hl => ?_⟩
      simp [blockLexemes, BlockForm.lexemes, BlockForm.contentLexemes, ListForm.lexemes, hl]
    · obtain ⟨⟨here, q⟩, hq, rfl⟩ := List.mem_map.mp h
      refine ⟨q, rfl, fun l hl => ?_⟩
      have hmore : ∃ c q, (c, q) ∈ more ∧ l ∈ q.lexemes := ⟨here, q, hq, hl⟩
      simp [blockLexemes, BlockForm.lexemes, BlockForm.contentLexemes, ListForm.lexemes]
      grind

theorem startsIn_of_mem_spans {kind : NodeKind} {name : Option (Located String)}
    {block : Option BlockForm} {children : List Declaration} {here : Span}
    (h : span ∈ Declaration.spans ⟨kind, name, blockProperties block, children, here⟩) :
    StartsIn (nameLexemes name ++ blockLexemes block) span := by
  rcases List.mem_append.mp h with h | h
  · obtain ⟨name, hname, rfl⟩ := List.mem_map.mp h
    exact ⟨_, List.mem_append_left _ (List.mem_map_of_mem hname), rfl⟩
  · obtain ⟨p, hp, hspan⟩ := List.mem_flatMap.mp h
    obtain ⟨q, rfl, hsub⟩ := exists_property_of_mem hp
    have hq : StartsIn q.lexemes span := by
      rcases List.mem_pair.mp hspan with rfl | rfl
      · exact (startsIn_property q).1
      · exact (startsIn_property q).2
    exact hq.mono fun l hl => List.mem_append_right _ (hsub hl)

mutual

theorem NodeForm.spans_declaration (f : NodeForm) :
    ∀ d ∈ f.declaration.preorder, ∀ s ∈ d.spans, StartsIn f.lexemes s := by
  match f with
  | .bare keyword name block =>
    simp only [declaration, Declaration.preorder, Declaration.preorders, List.mem_singleton,
      forall_eq]
    intro s hs
    exact (startsIn_of_mem_spans hs).mono (by simp [lexemes])
  | .braced keyword name block opening children closing =>
    rw [declaration, Declaration.preorder, List.forall_mem_cons]
    refine ⟨fun s hs => (startsIn_of_mem_spans hs).mono ?_,
      fun d hd s hs => (spans_declarations children d hd s hs).mono ?_⟩
    · rw [lexemes]
      grind
    · rw [lexemes]
      grind
  | .text keyword name content block =>
    simp only [declaration, Declaration.preorder, Declaration.preorders, List.mem_singleton,
      forall_eq]
    intro s hs
    refine (startsIn_of_mem_spans hs).mono ?_
    rw [lexemes]
    grind

theorem NodeForm.spans_declarations (fs : List NodeForm) :
    ∀ d ∈ Declaration.preorders (declarations fs), ∀ s ∈ d.spans, StartsIn (allLexemes fs) s := by
  match fs with
  | [] => simp [declarations, Declaration.preorders]
  | f :: fs =>
    rw [declarations, Declaration.preorders, List.forall_mem_append, allLexemes]
    exact ⟨fun d hd s hs => (spans_declaration f d hd s hs).mono (List.subset_append_left _ _),
      fun d hd s hs => (spans_declarations fs d hd s hs).mono (List.subset_append_right _ _)⟩

end

/-- A byte of the source before which a number of whole characters stand. -/
def Boundary (source : String) (k : Nat) : Prop :=
  ∃ before rest, source.toList = before ++ rest ∧ k = byteLength before

theorem boundary_of_startsIn (h : StartsIn (lex source) span) : Boundary source span.start := by
  obtain ⟨l, hl, hstart⟩ := h
  obtain ⟨before, word, after, hsource, -, hspan⟩ := Lexeme.cutFrom_of_mem [] rfl hl
  exact ⟨before, word ++ after, by simpa using hsource, by rw [← hstart, hspan]⟩

end Fixture

namespace RunError

/-- Where an error is, if it is about the text. -/
def span? : RunError → Option Span
  | parse e => some e.span
  | build e => e.span?
  | settings _ | layout _ => none

variable {settings : Settings} {format : Format} {e : RunError}

theorem report_place (h : e.span? = some span) : (e.report source).place = place? source span := by
  cases e with
  | parse e => cases h; rfl
  | build e =>
    rw [span?] at h
    simp only [report, h]
  | settings e => cases h
  | layout fault => cases h

theorem bind_eq_error {ε β γ : Type} {x : Except ε β} {f : β → Except ε γ} {e : ε} :
    x >>= f = .error e ↔ x = .error e ∨ ∃ b, x = .ok b ∧ f b = .error e := by
  cases x <;> simp [bind, Except.bind]

theorem mapError_eq_error {ε δ β : Type} {x : Except ε β} {f : ε → δ} {e : δ} :
    x.mapError f = .error e ↔ ∃ s, x = .error s ∧ f s = e := by
  cases x <;> simp [Except.mapError]

theorem mapError_eq_ok {ε δ β : Type} {x : Except ε β} {f : ε → δ} {b : β} :
    x.mapError f = .ok b ↔ x = .ok b := by
  cases x <;> simp [Except.mapError]

/-- An error with a place is one of reading the text or of building what it says. -/
theorem run_error (h : run source settings format = .error e) (hspan : e.span? = some span) :
    (∃ s, e = .parse s ∧ Fixture.parse source = .error s) ∨
      ∃ d config b, e = .build b ∧ Fixture.parse source = .ok d ∧
        Fixture.build d config = .error b := by
  rcases bind_eq_error.mp h with h | ⟨l, -, h⟩
  swap
  · cases format <;> obtain ⟨fault, -, rfl⟩ := mapError_eq_error.mp h <;> cases hspan
  rcases bind_eq_error.mp h with h | ⟨d, hd, h⟩
  · obtain ⟨s, hs, rfl⟩ := mapError_eq_error.mp h
    exact Or.inl ⟨s, rfl, hs⟩
  rcases bind_eq_error.mp h with h | ⟨config, hconfig, h⟩
  · obtain ⟨s, -, rfl⟩ := mapError_eq_error.mp h
    cases hspan
  rcases bind_eq_error.mp h with h | ⟨built, -, h⟩
  · obtain ⟨b, hb, rfl⟩ := mapError_eq_error.mp h
    exact Or.inr ⟨d, config, b, rfl, mapError_eq_ok.mp hd, hb⟩
  · split at h
    · cases h
    · cases h
      cases hspan

theorem error_boundary (h : run source settings format = .error e) (hspan : e.span? = some span) :
    Boundary source span.start := by
  rcases run_error h hspan with ⟨s, rfl, hparse⟩ | ⟨d, config, b, rfl, hparse, hbuild⟩
  · obtain rfl := Option.some.inj hspan
    rcases parse_error hparse with ⟨before, l, after, -, hlex, -, -, hs, -⟩ | ⟨-, -, -, hs⟩
    · exact boundary_of_startsIn ⟨l, by simp [hlex], by rw [hs]⟩
    · exact ⟨source.toList, [], by simp, by rw [hs, byteLength_toList]⟩
  · rw [build_settle (parse_textsAreLeaves hparse), settle_eq_error] at hbuild
    obtain ⟨d', hd', hs⟩ := complaints_span (List.mem_of_mem_head? hbuild) hspan
    obtain ⟨f, hf, rfl⟩ := parse_eq_ok.mp hparse
    exact boundary_of_startsIn (hf ▸ f.spans_declaration d' hd' span hs)

/-- An error in a text starts at a character, and a report gives the line and column of that
character exactly if those before it are all one byte long and the bytes of the error end no later
than the characters of the text. -/
theorem report_points_at_error_iff (h : run source settings format = .error e)
    (hspan : e.span? = some span) :
    Boundary source span.start ∧ ∀ before rest, source.toList = before ++ rest →
      span.start = byteLength before →
      ((e.report source).place = placeAt source before.length ↔
        (∀ c ∈ before, c.utf8Size = 1) ∧ span.stop ≤ source.length + 1) := by
  refine ⟨error_boundary h hspan, fun before rest hsource hstart => ?_⟩
  rw [report_place hspan]
  by_cases hne : source = ""
  · subst hne
    -- nothing is found in an empty text but its end
    have hempty : Fixture.parse "" = .error ⟨⟨0, 0⟩, none, Reading.nothing.expected⟩ := by
      simp [Fixture.parse, lex, lexFrom, readAll, Reading.finish?]
    obtain rfl : before = [] := (List.append_eq_nil_iff.mp hsource.symm).1
    rcases run_error h hspan with ⟨s, rfl, hparse⟩ | ⟨d, config, b, rfl, hparse, -⟩
    · obtain rfl := Except.error.inj (hempty.symm.trans hparse)
      obtain rfl := Option.some.inj hspan
      simp [place?, placeAt, lineLengths, position?]
    · cases hempty.symm.trans hparse
  · have hle : before.length ≤ source.length := by
      rw [← String.length_toList, hsource, List.length_append]
      exact Nat.le_add_right _ _
    rw [place?_eq_placeAt hne hle, hstart, byteLength_eq_length]

theorem run_of_parse_error {s : SyntaxError} (h : Fixture.parse source = .error s) :
    run source settings format = .error (.parse s) := by
  rw [run, layOut, h]
  rfl

theorem report_points_at_error_bracket : ∃ e, run "node ] // é" .initial .table = .error e ∧
    e.span? = some ⟨5, 6⟩ ∧ (e.report "node ] // é").place = some (1, 6) := by
  obtain ⟨s, hs, hspan, -⟩ := exists_error_of_report "node ] // é" ⟨5, 6⟩ "Unexpected ']'"
    (by decide +kernel)
  have hrun : run "node ] // é" .initial .table = .error (.parse s) := run_of_parse_error hs
  refine ⟨_, hrun, congrArg some hspan, ?_⟩
  have hplace := (report_points_at_error_iff hrun (congrArg some hspan)).2 "node ".toList
    "] // é".toList rfl rfl
  have hnarrow : byteLength "node ".toList = "node ".toList.length := by decide +kernel
  exact (hplace.mpr ⟨byteLength_eq_length.mp hnarrow, by decide +kernel⟩).trans (by decide +kernel)

/-- Behind a comment with a wide letter the report points one column too far. -/
theorem report_misses_error_behind_wide : ∃ e, run "// é\nnode ]" .initial .table = .error e ∧
    e.span? = some ⟨byteLength "// é\nnode ".toList, 12⟩ ∧
    (e.report "// é\nnode ]").place = some (2, 7) ∧
    placeAt "// é\nnode ]" "// é\nnode ".length = some (2, 6) := by
  obtain ⟨s, hs, hspan, -⟩ := exists_error_of_report "// é\nnode ]" ⟨11, 12⟩ "Unexpected ']'"
    (by decide +kernel)
  refine ⟨_, run_of_parse_error hs, congrArg some hspan, ?_, by decide +kernel⟩
  rw [report_place (e := .parse s) (congrArg some hspan)]
  decide +kernel

end RunError

end Flexbox
