import Flexbox.Proofs.Fixture.Readers
import Flexbox.Proofs.Fixture.Respacing

namespace Flexbox.Fixture

namespace Token

variable {inner beyond : List Char}

theorem takeWhile_cut (p : Char → Bool)
    (h : ((inner ++ beyond).takeWhile p).length ≤ inner.length) :
    (inner ++ beyond).takeWhile p = inner.takeWhile p := by
  rw [List.takeWhile_append] at h ⊢
  split at h
  · rename_i hall
    have hinner : inner.takeWhile p = inner := (List.takeWhile_prefix p).eq_of_length hall
    have hnone : beyond.takeWhile p = [] := by
      rw [← List.length_eq_zero_iff]
      rw [List.length_append] at h
      omega
    simp [hinner, hnone]
  · rename_i hsome
    rw [if_neg hsome]

theorem length_le_stringPiece (seen cs : List Char) :
    seen.length ≤ (stringPiece seen cs).more := by
  fun_induction stringPiece seen cs <;> simp_all <;> omega

theorem length_lt_stringPiece (seen : List Char) {cs : List Char} (h : cs ≠ []) :
    seen.length < (stringPiece seen cs).more := by
  fun_cases stringPiece seen cs
  case case1 => exact absurd rfl h
  case case5 c rest _ => exact Nat.le_of_succ_le (length_le_stringPiece (c :: '\\' :: seen) rest)
  case case6 c rest _ _ _ => exact length_le_stringPiece (c :: seen) rest
  all_goals exact Nat.lt_succ_self _

theorem stringPiece_cut (seen : List Char)
    (h : (stringPiece seen (inner ++ beyond)).more ≤ seen.length + inner.length) :
    stringPiece seen (inner ++ beyond) = stringPiece seen inner := by
  fun_induction stringPiece seen inner with
  | case1 seen =>
    cases beyond with
    | nil => rfl
    | cons c beyond =>
      exact absurd h (Nat.not_le_of_lt (length_lt_stringPiece seen (List.cons_ne_nil c beyond)))
  | case2 seen tail => rfl
  | case3 seen =>
    cases beyond with
    | nil => rfl
    | cons c beyond =>
      -- the backslash protects what stands behind the cut, which only a line end refuses
      by_cases hc : c = '\n'
      · simp [stringPiece, hc]
      · have := length_le_stringPiece (c :: '\\' :: seen) beyond
        simp [stringPiece, hc] at h this
        omega
  | case4 seen c rest line => simp [stringPiece, line]
  | case5 seen c rest line ih =>
    simp only [List.cons_append, stringPiece, line] at h ⊢
    exact ih (h.trans (by simp; omega))
  | case6 seen c rest quote lone protecting ih =>
    have hplain : stringPiece seen (c :: (rest ++ beyond)) =
        stringPiece (c :: seen) (rest ++ beyond) := by
      have hc : c ≠ '\\' := by
        rintro rfl
        cases rest with
        | nil => exact lone rfl rfl
        | cons d rest => exact protecting d rest rfl rfl
      exact stringPiece.eq_5 _ _ _ quote (by grind) (by grind)
    rw [List.cons_append, hplain] at h ⊢
    exact ih (h.trans (by simp; omega))

theorem commentLength_cut (h : commentLength (inner ++ beyond) ≤ inner.length) :
    commentLength (inner ++ beyond) = commentLength inner := by
  fun_induction commentLength inner with
  | case1 => simpa using h
  | case2 =>
    cases beyond with
    | nil => rfl
    | cons c beyond =>
      simp only [List.cons_append, List.nil_append, commentLength] at h
      split at h <;> simp only [List.length_singleton] at h <;> omega
  | case3 c rest slash => simp [commentLength, slash]
  | case4 c rest slash ih =>
    simp [commentLength, slash] at h ⊢
    exact ih (by omega)
  | case5 c rest lone star ih =>
    have hplain : commentLength (c :: (rest ++ beyond)) = 1 + commentLength (rest ++ beyond) := by
      have hc : c ≠ '*' := by
        rintro rfl
        cases rest with
        | nil => exact lone rfl rfl
        | cons d rest => exact star d rest rfl rfl
      exact commentLength.eq_4 _ _ (by grind) (by grind)
    rw [List.cons_append, hplain] at h ⊢
    rw [ih (by simp at h; omega)]

/-- The piece of a number whose whole part, its first digit and the others, was read. -/
def numberPiece (c : Char) (digits : List Char) : List Char → Piece
  | '.' :: tail =>
    let fraction := tail.takeWhile Char.isDigit
    if fraction.isEmpty then ⟨some (ofDigits (c :: digits) []), digits.length⟩
    else ⟨some (ofDigits (c :: digits) fraction), digits.length + 1 + fraction.length⟩
  | _ => ⟨some (ofDigits (c :: digits) []), digits.length⟩

theorem piece_digits {c : Char} (h : c.isDigit) (rest : List Char) :
    piece c rest = numberPiece c (rest.takeWhile Char.isDigit)
      (rest.drop (rest.takeWhile Char.isDigit).length) := by
  unfold piece
  split
  case h_11 =>
    simp only [isNameStart_eq_false h, h, Bool.false_eq_true, if_true, if_false]
    rfl
  all_goals exact absurd h (by decide)

theorem length_le_numberPiece (c : Char) (digits rest : List Char) :
    digits.length ≤ (numberPiece c digits rest).more := by
  fun_cases numberPiece c digits rest
  case case2 => exact Nat.le_add_right_of_le (Nat.le_succ _)
  all_goals exact Nat.le_refl _

theorem numberPiece_cut (c : Char) (digits : List Char)
    (h : (numberPiece c digits (inner ++ beyond)).more ≤ digits.length + inner.length) :
    numberPiece c digits (inner ++ beyond) = numberPiece c digits inner := by
  match inner with
  | [] =>
    -- a point behind the cut counts only with digits, and these are behind it too
    rw [List.nil_append] at h ⊢
    fun_cases numberPiece c digits beyond
    case case2 tail fraction hsome =>
      simp only [numberPiece, fraction, hsome] at h
      simp at h
      omega
    all_goals rfl
  | d :: inner =>
    by_cases hd : d = '.'
    · subst hd
      have htail : (inner ++ beyond).takeWhile Char.isDigit = inner.takeWhile Char.isDigit := by
        refine takeWhile_cut _ ?_
        simp only [List.cons_append, numberPiece] at h
        split at h
        · rename_i hempty
          simp [List.isEmpty_iff.mp hempty]
        · simp only [List.length_cons] at h
          omega
      simp only [List.cons_append, numberPiece, htail]
    · rw [List.cons_append, numberPiece.eq_2 _ _ _ (by grind), numberPiece.eq_2 _ _ _ (by grind)]

theorem piece_digits_cut {c : Char} (hc : c.isDigit)
    (h : (piece c (inner ++ beyond)).more ≤ inner.length) :
    piece c (inner ++ beyond) = piece c inner := by
  rw [piece_digits hc] at h ⊢
  have hwhole : (inner ++ beyond).takeWhile Char.isDigit = inner.takeWhile Char.isDigit :=
    takeWhile_cut _ ((length_le_numberPiece c _ _).trans h)
  have hle : (inner.takeWhile Char.isDigit).length ≤ inner.length :=
    (List.takeWhile_prefix _).length_le
  rw [hwhole, List.drop_append_of_le_length hle] at h ⊢
  rw [piece_digits hc]
  refine numberPiece_cut c _ (h.trans ?_)
  rw [List.length_drop]
  omega

theorem piece_slash_cut (h : (piece '/' (inner ++ beyond)).more ≤ inner.length) :
    piece '/' (inner ++ beyond) = piece '/' inner := by
  cases inner with
  | nil =>
    -- a comment would have its second mark behind the cut
    cases beyond with
    | nil => rfl
    | cons d beyond => by_cases hslash : d = '/' <;> by_cases hstar : d = '*' <;> simp_all [piece]
  | cons d inner =>
    by_cases hslash : d = '/'
    · subst hslash
      simp only [List.cons_append, piece, List.length_cons] at h ⊢
      rw [takeWhile_cut _ (by omega)]
    by_cases hstar : d = '*'
    · subst hstar
      simp only [List.cons_append, piece, List.length_cons] at h ⊢
      rw [commentLength_cut (by omega)]
    simp [piece, hslash, hstar]

theorem piece_cut {c : Char} (h : (piece c (inner ++ beyond)).more ≤ inner.length) :
    piece c (inner ++ beyond) = piece c inner := by
  by_cases hname : isNameStart c
  · rw [piece_word hname] at h ⊢
    rw [piece_word hname, takeWhile_cut _ h]
  by_cases hdigit : c.isDigit
  · exact piece_digits_cut hdigit h
  unfold piece at h ⊢
  split
  case h_9 => exact stringPiece_cut [] (by simpa using h)
  case h_10 => exact piece_slash_cut h
  case h_11 => simp [hname, hdigit]
  all_goals rfl

end Token

/-- The span when `k` more bytes stand before it. -/
def Span.shift (k : Nat) (s : Span) : Span := ⟨k + s.start, k + s.stop⟩

def Lexeme.shift (k : Nat) (l : Lexeme) : Lexeme := ⟨l.token, l.span.shift k⟩

def Located.shift {β : Type} (k : Nat) (x : Located β) : Located β := ⟨x.item, x.span.shift k⟩

theorem Span.across_shift (k : Nat) {ls : List Lexeme} (h : ls ≠ []) :
    across (ls.map (Lexeme.shift k)) = (across ls).shift k := by
  obtain ⟨last, hlast⟩ := Option.isSome_iff_exists.mp (List.getLast?_isSome.mpr h)
  obtain ⟨first, rest, rfl⟩ := List.exists_cons_of_ne_nil h
  simp only [across, List.getLast?_map, hlast]
  rfl

section Lexing

variable {start n : Nat} {c : Char} {cs rest : List Char} {before ls after : List Lexeme}

theorem lexFrom_shift (k start : Nat) (cs : List Char) :
    lexFrom (k + start) cs = (lexFrom start cs).map (Lexeme.shift k) := by
  fun_induction lexFrom start cs with
  | case1 => simp [lexFrom]
  | case2 start c rest piece stop later t ht =>
    rename_i ih
    rw [lexFrom, List.map_cons, ← ih]
    simp [piece, ht, stop, Lexeme.shift, Span.shift, Nat.add_assoc]
  | case3 start c rest piece stop later ht =>
    rename_i ih
    rw [lexFrom, ← ih]
    simp [piece, ht, stop, Nat.add_assoc]

/-- Some lexemes are those of a rest of the text, which starts where the first of them does. -/
def Ends (start : Nat) (cs : List Char) (ls : List Lexeme) : Prop :=
  ∃ passed rest, cs = passed ++ rest ∧ lexFrom (start + byteLength passed) rest = ls ∧
    (Span.across ls).start = start + byteLength passed

theorem Ends.cons
    (h : Ends (start + c.utf8Size + byteLength (rest.take n)) (rest.drop n) ls) :
    Ends start (c :: rest) ls := by
  obtain ⟨passed, tail, hrest, hlex, hstart⟩ := h
  have hlength : start + byteLength (c :: (rest.take n ++ passed)) =
      start + c.utf8Size + byteLength (rest.take n) + byteLength passed := by
    simp only [byteLength, byteLength_append]
    omega
  refine ⟨c :: (rest.take n ++ passed), tail, ?_, hlength ▸ hlex, hlength ▸ hstart⟩
  rw [List.cons_append, List.append_assoc, ← hrest, List.take_append_drop]

theorem ends_lexFrom (h : lexFrom start cs = before ++ ls) (hls : ls ≠ []) : Ends start cs ls := by
  fun_induction lexFrom start cs generalizing before with
  | case1 => exact absurd (List.append_eq_nil_iff.mp h.symm).2 hls
  | case2 start c rest piece stop later t ht =>
    rename_i ih
    cases before with
    | nil =>
      refine ⟨[], c :: rest, rfl, ?_, ?_⟩
      · rw [← List.nil_append ls, ← h]
        simp [byteLength, lexFrom, ht, piece, later, stop]
      · rw [← List.nil_append ls, ← h]
        rfl
    | cons l before => exact (ih (List.cons.inj h).2).cons
  | case3 start c rest piece stop later ht =>
    rename_i ih
    exact (ih h).cons

/-- Some lexemes are those of a beginning of the text, which stops where the last of them does. -/
def Begins (start : Nat) (cs : List Char) (ls : List Lexeme) : Prop :=
  ∃ inner beyond, cs = inner ++ beyond ∧ lexFrom start inner = ls ∧
    (Span.across ls).stop = start + byteLength inner

theorem lexFrom_cut (start : Nat) {inner beyond : List Char} {p : Token.Piece}
    (hp : Token.piece c rest = p) (hle : p.more ≤ rest.length)
    (h : rest.drop p.more = inner ++ beyond) :
    let stop := start + c.utf8Size + byteLength (rest.take p.more)
    ∃ shorter, c :: rest = shorter ++ beyond ∧
      start + byteLength shorter = stop + byteLength inner ∧
      lexFrom start shorter =
        (p.token.map fun t => (⟨t, start, stop⟩ : Lexeme)).toList ++ lexFrom stop inner := by
  have hlength : (rest.take p.more).length = p.more := List.length_take_of_le hle
  generalize htaken : rest.take p.more = taken at *
  have hrest : rest = taken ++ inner ++ beyond := by
    rw [List.append_assoc, ← h, ← htaken, List.take_append_drop]
  have hpiece : Token.piece c (taken ++ inner) = p := by
    subst hp hrest
    exact (Token.piece_cut (by rw [List.length_append]; omega)).symm
  refine ⟨c :: (taken ++ inner), by rw [List.cons_append, ← hrest], ?_, ?_⟩
  · simp only [byteLength, byteLength_append]
    omega
  · rw [lexFrom]
    simp only [hpiece, List.take_left' hlength, List.drop_left' hlength]
    cases p.token <;> rfl

theorem begins_lexFrom (h : lexFrom start cs = ls ++ after) (hls : ls ≠ []) :
    Begins start cs ls := by
  fun_induction lexFrom start cs generalizing ls with
  | case1 => exact absurd (List.append_eq_nil_iff.mp h.symm).1 hls
  | case2 start c rest piece stop later t ht =>
    rename_i ih
    obtain ⟨l, ls, rfl⟩ := List.exists_cons_of_ne_nil hls
    obtain ⟨rfl, hlater⟩ := List.cons.inj h
    have hle : piece.more ≤ rest.length := by
      obtain ⟨word, behind, hrest, hmore, -⟩ := Token.spelled_of_piece ht
      exact hmore.trans_le (by simp [hrest])
    have hbegins : ∃ inner beyond, rest.drop piece.more = inner ++ beyond ∧
        lexFrom stop inner = ls ∧
        (Span.across (⟨t, start, stop⟩ :: ls)).stop = stop + byteLength inner := by
      by_cases hnil : ls = []
      · subst hnil
        exact ⟨[], rest.drop piece.more, rfl, by rw [lexFrom], rfl⟩
      · obtain ⟨inner, beyond, hrest, hlex, hstop⟩ := ih hlater hnil
        refine ⟨inner, beyond, hrest, hlex, ?_⟩
        rw [← hstop, ← List.singleton_append, Span.across_append _ _ (by simp) hnil]
    obtain ⟨inner, beyond, hrest, rfl, hstop⟩ := hbegins
    obtain ⟨shorter, hcut, hlength, hlex⟩ := lexFrom_cut start rfl hle hrest
    exact ⟨shorter, beyond, hcut, by rw [hlex, ht]; rfl, hstop.trans hlength.symm⟩
  | case3 start c rest piece stop later ht =>
    rename_i ih
    obtain ⟨inner, beyond, hrest, hlex, hstop⟩ := ih h hls
    have hle : piece.more ≤ rest.length := by
      -- behind a piece that reached further nothing would be left to find
      by_contra hlt
      have hnil : rest.drop piece.more = [] := List.drop_eq_nil_of_le (Nat.le_of_not_le hlt)
      rw [show later = lexFrom stop (rest.drop piece.more) from rfl, hnil, lexFrom] at h
      exact hls (List.append_eq_nil_iff.mp h.symm).1
    obtain ⟨shorter, hcut, hlength, hshorter⟩ := lexFrom_cut start rfl hle hrest
    refine ⟨shorter, beyond, hcut, ?_, hstop.trans hlength.symm⟩
    rw [hshorter, ht]
    exact hlex

end Lexing

/-- Lexemes of a text that stand together are the lexemes of the text between where they start and
where they stop. -/
theorem lex_slice {source : String} {ls : List Lexeme} (h : ls <:+: lex source) (hls : ls ≠ []) :
    String.Pos.Raw.IsValid source ⟨(Span.across ls).start⟩ ∧
    String.Pos.Raw.IsValid source ⟨(Span.across ls).stop⟩ ∧
    ls = (lex ((Span.across ls).slice source)).map (Lexeme.shift (Span.across ls).start) := by
  obtain ⟨before, after, h⟩ := h
  rw [List.append_assoc] at h
  obtain ⟨passed, rest, hsource, hrest, hfirst⟩ := ends_lexFrom h.symm (by simp [hls])
  obtain ⟨inner, beyond, rfl, hlex, hstop⟩ := begins_lexFrom hrest hls
  rw [Nat.zero_add] at hlex hstop hfirst
  have hstart : (Span.across ls).start = byteLength passed := by
    obtain ⟨l, ls, rfl⟩ := List.exists_cons_of_ne_nil hls
    exact hfirst
  have hslice : (Span.across ls).slice source = String.ofList inner := by
    have hs : source = String.ofList (passed ++ inner ++ beyond) := by
      rw [List.append_assoc, ← hsource, String.ofList_toList]
    rw [Span.slice, hstart, hstop, hs, byteLength_eq, byteLength_eq, String.extract_of_valid]
  refine ⟨hstart ▸ isValid_byteLength hsource, ?_, ?_⟩
  · rw [hstop, ← byteLength_append]
    exact isValid_byteLength (hsource.trans (List.append_assoc ..).symm)
  · rw [hslice, hstart, lex, String.toList_ofList, ← lexFrom_shift, Nat.add_zero, hlex]

end Flexbox.Fixture
