import Flexbox.Fixture.Token
import Mathlib.Data.List.Forall2
import Mathlib.Data.List.TakeWhile
import Mathlib.Data.String.Basic

namespace Flexbox.Fixture

namespace Token

def mark? : Char → Option Token
  | '\x7b' => some .braceOpen
  | '\x7d' => some .braceClose
  | '[' => some .bracketOpen
  | ']' => some .bracketClose
  | ',' => some .comma
  | ':' => some .colon
  | '-' => some .minus
  | '%' => some .percent
  | _ => none

/-- What may stand between the quotes of a string. -/
inductive Quotable : List Char → Prop
  | nil : Quotable []
  | plain {c : Char} {rest : List Char} (quote : c ≠ '"') (backslash : c ≠ '\\')
      (later : Quotable rest) : Quotable (c :: rest)
  | escape {c : Char} {rest : List Char} (line : c ≠ '\n') (later : Quotable rest) :
      Quotable ('\\' :: c :: rest)

inductive Spelled : Token → List Char → Prop
  | mark {c : Char} {t : Token} (sign : mark? c = some t) : Spelled t [c]
  | word {c : Char} {rest : List Char} (start : isNameStart c) (more : ∀ d ∈ rest, isNameRest d) :
      Spelled (ofWord (c :: rest)) (c :: rest)
  | whole {c : Char} {digits : List Char} (start : c.isDigit) (more : ∀ d ∈ digits, d.isDigit) :
      Spelled (ofDigits (c :: digits) []) (c :: digits)
  | fraction {c : Char} {digits decimals : List Char} (start : c.isDigit)
      (more : ∀ d ∈ digits, d.isDigit) (some : decimals ≠ []) (after : ∀ d ∈ decimals, d.isDigit) :
      Spelled (ofDigits (c :: digits) decimals) (c :: (digits ++ '.' :: decimals))
  | quoted {body : List Char} (valid : Quotable body) :
      Spelled (.string (String.ofList body)) ('"' :: (body ++ ['"']))

variable {c : Char} {rest tail body seen : List Char} {t : Token}

theorem stringPiece_quoted (h : Quotable body) (seen tail : List Char) :
    stringPiece seen (body ++ '"' :: tail) =
      ⟨some (.string (String.ofList (seen.reverse ++ body))), seen.length + body.length + 1⟩ := by
  induction h generalizing seen with
  | nil => simp [stringPiece]
  | plain quote backslash later ih =>
    rw [List.cons_append, stringPiece.eq_5 _ _ _ quote (by grind) (by grind), ih]
    simp
    omega
  | escape line later ih =>
    simp only [List.cons_append, stringPiece, beq_iff_eq, line, if_false, ih]
    simp
    omega

theorem exists_quotable (h : (stringPiece seen rest).token = some t) :
    ∃ body tail, Quotable body ∧ rest = body ++ '"' :: tail := by
  fun_induction stringPiece seen rest with
  | case1 => cases h
  | case2 seen tail => exact ⟨[], tail, .nil, rfl⟩
  | case3 => cases h
  | case4 => cases h
  | case5 seen d rest hd ih =>
    obtain ⟨body, tail, hbody, rfl⟩ := ih h
    exact ⟨'\\' :: d :: body, tail, .escape (by simpa using hd) hbody, rfl⟩
  | case6 seen d rest quote lone protecting ih =>
    obtain ⟨body, tail, hbody, rfl⟩ := ih h
    refine ⟨d :: body, tail, .plain quote ?_ hbody, rfl⟩
    -- a backslash here would have protected what follows, if only the closing quote
    rintro rfl
    cases body with
    | nil => exact protecting _ _ rfl rfl
    | cons e body => exact protecting _ _ rfl rfl

def Parted (tail : List Char) : Prop := ∀ c ∈ tail.head?, c = ' '

theorem parted_nil : Parted [] := nofun

theorem parted_blank (tail : List Char) : Parted (' ' :: tail) := by simp [Parted]

theorem takeWhile_parted {p : Char → Bool} (hp : p ' ' = false) (hb : ∀ c ∈ body, p c)
    (ht : Parted tail) : (body ++ tail).takeWhile p = body := by
  rw [List.takeWhile_append_of_pos hb]
  cases tail with
  | nil => simp
  | cons c tail =>
    obtain rfl := ht c rfl
    simp [hp]

theorem piece_word (h : isNameStart c) (rest : List Char) :
    piece c rest =
      ⟨some (ofWord (c :: rest.takeWhile isNameRest)), (rest.takeWhile isNameRest).length⟩ := by
  unfold piece
  split
  case h_11 => simp [h]
  all_goals exact absurd h (by decide)

theorem isNameStart_eq_false (h : c.isDigit) : isNameStart c = false := by
  simp only [Char.isDigit, Bool.and_eq_true, decide_eq_true_eq, ge_iff_le,
    UInt32.le_iff_toNat_le, Char.reduceVal, UInt32.reduceToNat] at h
  have hu : c ≠ '_' := by
    rintro rfl
    exact absurd h (by decide)
  change ((decide (c.val ≥ 'A'.val ∧ c.val ≤ 'Z'.val) ||
    (decide (c.val ≥ 'a'.val) && decide (c.val ≤ 'z'.val))) || c == '_') = false
  simp only [ge_iff_le, UInt32.le_iff_toNat_le, Bool.or_eq_false_iff, Bool.and_eq_false_iff,
    decide_eq_false_iff_not, beq_eq_false_iff_ne, Char.reduceVal, UInt32.reduceToNat]
  exact ⟨⟨by omega, by omega⟩, hu⟩

theorem piece_whole (h : c.isDigit) (hb : ∀ d ∈ body, d.isDigit) (ht : Parted tail) :
    piece c (body ++ tail) = ⟨some (ofDigits (c :: body) []), body.length⟩ := by
  unfold piece
  split
  case h_11 =>
    simp only [isNameStart_eq_false h, h, takeWhile_parted rfl hb ht, List.drop_left,
      Bool.false_eq_true, if_true, if_false]
    split
    · exact absurd (ht '.' rfl) (by decide)
    · rfl
  all_goals exact absurd h (by decide)

theorem piece_fraction {decimals : List Char} (h : c.isDigit) (hb : ∀ d ∈ body, d.isDigit)
    (hne : decimals ≠ []) (hd : ∀ d ∈ decimals, d.isDigit) (ht : Parted tail) :
    piece c (body ++ '.' :: (decimals ++ tail)) =
      ⟨some (ofDigits (c :: body) decimals), body.length + 1 + decimals.length⟩ := by
  have hwhole : (body ++ '.' :: (decimals ++ tail)).takeWhile Char.isDigit = body := by
    rw [List.takeWhile_append_of_pos hb]
    simp
  unfold piece
  split
  case h_11 =>
    simp [isNameStart_eq_false h, h, hwhole, takeWhile_parted rfl hd ht, hne]
  all_goals exact absurd h (by decide)

theorem piece_mark (h : mark? c = some t) (rest : List Char) : piece c rest = ⟨some t, 0⟩ := by
  unfold mark? at h
  split at h <;> cases h <;> rfl

theorem piece_quote (h : Quotable body) (tail : List Char) :
    piece '"' (body ++ '"' :: tail) = ⟨some (.string (String.ofList body)), body.length + 1⟩ := by
  simpa [piece] using stringPiece_quoted h [] tail

theorem Spelled.piece_eq {word : List Char} (h : Spelled t word) (ht : Parted tail) :
    ∃ c rest, word = c :: rest ∧ piece c (rest ++ tail) = ⟨some t, rest.length⟩ := by
  cases h with
  | mark sign => exact ⟨_, _, rfl, piece_mark sign _⟩
  | word start more =>
    refine ⟨_, _, rfl, ?_⟩
    rw [piece_word start, takeWhile_parted rfl more ht]
  | whole start more => exact ⟨_, _, rfl, piece_whole start more ht⟩
  | fraction start more some after =>
    refine ⟨_, _, rfl, ?_⟩
    simpa [Nat.add_assoc, Nat.add_comm 1] using piece_fraction start more some after ht
  | quoted valid =>
    refine ⟨_, _, rfl, ?_⟩
    simpa using piece_quote valid tail

theorem exists_fraction
    (h : rest.drop (rest.takeWhile Char.isDigit).length = '.' :: tail) :
    ∃ after, rest = rest.takeWhile Char.isDigit ++ '.' :: tail.takeWhile Char.isDigit ++ after := by
  obtain ⟨point, hpoint⟩ := List.takeWhile_prefix Char.isDigit (l := rest)
  obtain ⟨after, hafter⟩ := List.takeWhile_prefix Char.isDigit (l := tail)
  refine ⟨after, ?_⟩
  have hdrop := congrArg (List.drop (rest.takeWhile Char.isDigit).length) hpoint
  rw [List.drop_left, h] at hdrop
  rw [List.append_assoc, List.cons_append, hafter, ← hdrop, hpoint]

theorem spelled_of_piece : (piece c rest).token = some t → ∃ word after, rest = word ++ after ∧
    (piece c rest).more = word.length ∧ Spelled t (c :: word) := by
  fun_cases piece c rest
  case case9 =>
    intro h
    obtain ⟨body, tail, hbody, rfl⟩ := exists_quotable h
    rw [stringPiece_quoted hbody] at h ⊢
    cases h
    exact ⟨body ++ ['"'], tail, by simp, by simp, .quoted hbody⟩
  case case13 start word =>
    rintro ⟨⟩
    obtain ⟨after, he⟩ := List.takeWhile_prefix isNameRest (l := rest)
    exact ⟨word, after, he.symm, rfl, .word start fun d hd => List.mem_takeWhile_imp hd⟩
  case case14 | case16 =>
    rintro ⟨⟩
    obtain ⟨after, he⟩ := List.takeWhile_prefix Char.isDigit (l := rest)
    exact ⟨_, after, he.symm, rfl, .whole ‹_› fun d hd => List.mem_takeWhile_imp hd⟩
  case case15 =>
    rintro ⟨⟩
    obtain ⟨after, he⟩ := exists_fraction ‹_ = '.' :: _›
    refine ⟨_, after, he, by simp +zetaDelta [Nat.add_assoc, Nat.add_comm 1], ?_⟩
    exact .fraction ‹c.isDigit› (fun d hd => List.mem_takeWhile_imp hd)
      (by simpa using ‹¬ List.isEmpty _ = true›)
      fun d hd => List.mem_takeWhile_imp hd
  case case10 | case11 | case12 | case17 => exact nofun
  -- what is left are the marks
  all_goals
    rintro ⟨⟩
    exact ⟨[], _, rfl, rfl, .mark rfl⟩

end Token

def Span.slice (span : Span) (source : String) : String :=
  String.Pos.Raw.extract source ⟨span.start⟩ ⟨span.stop⟩

theorem byteLength_eq (cs : List Char) : byteLength cs = String.utf8Len cs := by
  induction cs with
  | nil => rfl
  | cons c cs ih => rw [byteLength, ih, String.utf8Len_cons, Nat.add_comm]

theorem byteLength_append (cs ds : List Char) :
    byteLength (cs ++ ds) = byteLength cs + byteLength ds := by
  simp only [byteLength_eq, String.utf8Len_append]

/-- The lexeme is a part of the text, with a spelling of its token. -/
def Lexeme.CutFrom (cs : List Char) (l : Lexeme) : Prop :=
  ∃ before word after, cs = before ++ word ++ after ∧ l.token.Spelled word ∧
    l.span = ⟨byteLength before, byteLength before + byteLength word⟩

variable {start : Nat} {c : Char} {before cs rest tail word : List Char} {l : Lexeme} {t : Token}
  {ts : List Token} {source : String}

theorem byteLength_passed (n : Nat) (hs : start = byteLength before) :
    start + c.utf8Size + byteLength (rest.take n) = byteLength (before ++ c :: rest.take n) := by
  rw [byteLength_append, byteLength, hs, Nat.add_assoc]

theorem Lexeme.cutFrom_of_mem (before : List Char) (hs : start = byteLength before)
    (h : l ∈ lexFrom start cs) : l.CutFrom (before ++ cs) := by
  fun_induction lexFrom start cs generalizing before with
  | case1 => cases h
  | case2 start c rest piece stop later t ht =>
    rename_i ih
    rcases List.mem_cons.mp h with rfl | h
    · obtain ⟨word, after, rfl, hmore, hspelled⟩ := Token.spelled_of_piece ht
      refine ⟨before, c :: word, after, by simp, hspelled, ?_⟩
      simp [stop, piece, hmore, hs, byteLength, Nat.add_assoc]
    · simpa using ih _ (byteLength_passed _ hs) h
  | case3 start c rest piece stop later ht =>
    rename_i ih
    simpa using ih _ (byteLength_passed _ hs) h

theorem start_le_of_mem (h : l ∈ lexFrom start cs) : start ≤ l.span.start := by
  fun_induction lexFrom start cs with
  | case1 => cases h
  | case2 start c rest piece stop later t ht =>
    rename_i ih
    rcases List.mem_cons.mp h with rfl | h
    · exact Nat.le_refl _
    · have := ih h
      omega
  | case3 start c rest piece stop later ht =>
    rename_i ih
    have := ih h
    omega

theorem pairwise_lexFrom (start : Nat) (cs : List Char) :
    (lexFrom start cs).Pairwise fun l m => l.span.stop ≤ m.span.start := by
  fun_induction lexFrom start cs with
  | case1 => exact .nil
  | case2 start c rest piece stop later t ht =>
    rename_i ih
    exact .cons (fun m hm => start_le_of_mem hm) ih
  | case3 start c rest piece stop later ht =>
    rename_i ih
    exact ih

theorem Token.Spelled.lexFrom_append (h : t.Spelled word) (ht : Token.Parted tail) :
    lexFrom start (word ++ tail) =
      ⟨t, ⟨start, start + byteLength word⟩⟩ :: lexFrom (start + byteLength word) tail := by
  obtain ⟨c, rest, rfl, hp⟩ := h.piece_eq ht
  rw [List.cons_append, lexFrom]
  simp [hp, byteLength, Nat.add_assoc]

theorem lexFrom_blank (start : Nat) (cs : List Char) :
    lexFrom start (' ' :: cs) = lexFrom (start + 1) cs := by
  have hp : Token.piece ' ' cs = ⟨none, 0⟩ := rfl
  rw [lexFrom]
  simp [hp, byteLength, Char.utf8Size]

theorem tokens_intercalate {words : List (List Char)} (h : List.Forall₂ Token.Spelled ts words)
    (start : Nat) : (lexFrom start ([' '].intercalate words)).map Lexeme.token = ts := by
  induction h generalizing start with
  | nil => simp [lexFrom]
  | @cons t word ts words hword hwords ih =>
    cases hwords with
    | nil =>
      rw [List.intercalate_singleton, ← List.append_nil word,
        hword.lexFrom_append Token.parted_nil, lexFrom, List.map_singleton]
    | cons hnext hlater =>
      -- the blank ends the first word and is then passed over
      rw [List.intercalate_cons_cons, List.append_assoc, List.singleton_append,
        hword.lexFrom_append (Token.parted_blank _), lexFrom_blank, List.map_cons, ih]

theorem lex_intercalate {words : List String}
    (h : List.Forall₂ (fun t w => t.Spelled w.toList) ts words) :
    (lex (" ".intercalate words)).map Lexeme.token = ts := by
  rw [lex, String.toList_intercalate]
  exact tokens_intercalate (List.forall₂_map_right_iff.mpr h) 0

theorem Lexeme.CutFrom.slice_spelled (h : l.CutFrom source.toList) :
    l.token.Spelled (l.span.slice source).toList := by
  obtain ⟨before, word, after, hsource, hword, hspan⟩ := h
  have hs : source = String.ofList (before ++ word ++ after) := by
    rw [← hsource, String.ofList_toList]
  rw [Span.slice, hspan, hs, byteLength_eq, byteLength_eq, String.extract_of_valid,
    String.toList_ofList]
  exact hword

theorem isValid_byteLength (h : source.toList = before ++ rest) :
    String.Pos.Raw.IsValid source ⟨byteLength before⟩ := by
  have hs : source = String.ofList before ++ String.ofList rest := by
    rw [← String.ofList_append, ← h, String.ofList_toList]
  have := (String.Pos.Raw.isValid_rawEndPos (s := String.ofList before)).append_right
    (String.ofList rest)
  rwa [← hs, String.rawEndPos_ofList, ← byteLength_eq] at this

theorem Token.Spelled.byteLength_pos (h : t.Spelled word) : 0 < byteLength word := by
  obtain ⟨c, rest, rfl, -⟩ := h.piece_eq Token.parted_nil
  have := c.utf8Size_pos
  simp only [byteLength]
  omega

theorem Lexeme.CutFrom.boundaries (h : l.CutFrom source.toList) :
    l.span.start < l.span.stop ∧ String.Pos.Raw.IsValid source ⟨l.span.start⟩ ∧
      String.Pos.Raw.IsValid source ⟨l.span.stop⟩ := by
  obtain ⟨before, word, after, hsource, hword, hspan⟩ := h
  rw [hspan]
  refine ⟨Nat.lt_add_of_pos_right hword.byteLength_pos, ?_, ?_⟩
  · exact isValid_byteLength (hsource.trans (List.append_assoc ..))
  · rw [← byteLength_append]
    exact isValid_byteLength hsource

/-- Lexemes are non-empty parts of the text in order, each spells its token, and nothing around
them counts: with single blanks for all that stood between them the same tokens are found. -/
theorem lex_respaced (source : String) :
    (∀ l ∈ lex source, l.span.start < l.span.stop ∧
      String.Pos.Raw.IsValid source ⟨l.span.start⟩ ∧ String.Pos.Raw.IsValid source ⟨l.span.stop⟩ ∧
      l.token.Spelled (l.span.slice source).toList) ∧
    (lex source).Pairwise (fun l m => l.span.stop ≤ m.span.start) ∧
    (lex (" ".intercalate ((lex source).map fun l => l.span.slice source))).map Lexeme.token =
      (lex source).map Lexeme.token ∧
    ∀ (ts : List Token) (words : List String),
      List.Forall₂ (fun t w => t.Spelled w.toList) ts words →
      (lex (" ".intercalate words)).map Lexeme.token = ts := by
  have hcut : ∀ l ∈ lex source, l.CutFrom source.toList := fun l hl =>
    Lexeme.cutFrom_of_mem [] rfl hl
  refine ⟨fun l hl => ?_, pairwise_lexFrom _ _, lex_intercalate ?_, fun ts words => lex_intercalate⟩
  · obtain ⟨hlt, hstart, hstop⟩ := (hcut l hl).boundaries
    exact ⟨hlt, hstart, hstop, (hcut l hl).slice_spelled⟩
  · rw [List.forall₂_map_left_iff, List.forall₂_map_right_iff, List.forall₂_same]
    exact fun l hl => (hcut l hl).slice_spelled

end Flexbox.Fixture
