import Flexbox.Proofs.Fixture.Cuts
import Mathlib.Algebra.Group.Nat.Even
import Mathlib.Data.List.DropRight
import Mathlib.Logic.Function.Iterate

namespace Flexbox.Fixture

namespace Token

variable {c : Char} {cs text body : List Char}

theorem commentLength_pos (h : cs ≠ []) : 0 < commentLength cs := by
  fun_cases commentLength cs <;> grind

theorem commentLength_text (hmark : ¬ ['*', '/'] <:+: text)
    (hend : ∀ h : text ≠ [], text.getLast h ≠ '*') (rest : List Char) :
    commentLength (text ++ rest) = text.length + commentLength rest := by
  fun_induction commentLength text with
  | case1 => simp
  | case2 => exact absurd rfl (hend (by simp))
  | case3 c text slash =>
    obtain rfl : c = '/' := by simpa using slash
    exact absurd ⟨[], text, rfl⟩ hmark
  | case4 c text slash ih =>
    have ih := ih (fun h => hmark (h.trans (List.suffix_append ['*', c] text).isInfix))
      fun h => by simpa [h] using hend
    simp only [List.cons_append, commentLength, slash, List.length_cons, ih]
    simp
    omega
  | case5 c text lone star ih =>
    have hc : c ≠ '*' := by
      rintro rfl
      cases text <;> grind
    rw [List.cons_append, commentLength.eq_4 _ _ (by grind) (by grind), List.length_cons,
      ih (fun h => hmark (h.trans (List.suffix_cons c text).isInfix)) fun h => by
        simpa [h] using hend]
    omega

theorem commentLength_stars (n : Nat) (after : List Char) :
    commentLength (List.replicate n '*' ++ '*' :: '/' :: after) =
      n + 2 + if Even n then 0 else commentLength after := by
  induction n using Nat.twoStepInduction with
  | zero => simp [commentLength]
  | one =>
    simp [commentLength]
    omega
  | more n ih _ =>
    simp [List.replicate_succ, commentLength, ih, Nat.even_add_one]
    omega

/-- The number of stars that a text ends in. -/
def endStars (cs : List Char) : Nat := (cs.rtakeWhile (· == '*')).length

theorem commentLength_mark (hfirst : ¬ ['*', '/'] <:+: body) (after : List Char) :
    commentLength (body ++ '*' :: '/' :: after) =
      body.length + 2 + if Even (endStars body) then 0 else commentLength after := by
  have hstars : body.rtakeWhile (· == '*') = List.replicate (endStars body) '*' :=
    List.eq_replicate_of_mem fun c hc => by simpa using List.mem_rtakeWhile_imp hc
  have hsplit := List.rdropWhile_append_rtakeWhile (p := (· == '*')) (l := body)
  have htext := commentLength_text
    (fun h => hfirst (h.trans (List.rdropWhile_prefix (· == '*') body).isInfix))
    (fun h => by simpa using List.rdropWhile_last_not (· == '*') body h)
    (List.replicate (endStars body) '*' ++ '*' :: '/' :: after)
  have hlength := congrArg List.length hsplit
  rw [List.length_append] at hlength
  rw [← List.append_assoc, ← hstars, hsplit, hstars, commentLength_stars] at htext
  rw [htext, ← hlength, endStars]
  omega

end Token

/-- Where the lexer goes on behind the piece at the front of a text. -/
def resume : List Char → List Char
  | [] => []
  | c :: rest => rest.drop (Token.piece c rest).more

/-- On its way through a text the lexer starts to scan at this rest of it. -/
def Scans (cs rest : List Char) : Prop := ∃ k, resume^[k] cs = rest

theorem Scans.lexFrom_eq {cs tail : List Char} (h : Scans cs tail) (start : Nat) :
    ∃ before, cs = before ++ tail ∧
      lexFrom start cs = lexFrom start before ++ lexFrom (start + byteLength before) tail := by
  obtain ⟨k, hk⟩ := h
  induction k generalizing cs start with
  | zero =>
    obtain rfl : cs = tail := hk
    exact ⟨[], rfl, by simp [lexFrom, byteLength]⟩
  | succ k ih =>
    cases cs with
    | nil => exact ih start hk
    | cons c rest =>
      have hk : resume^[k] (resume (c :: rest)) = tail := hk
      obtain ⟨inner, hrest, hlex⟩ :=
        ih (start + c.utf8Size + byteLength (rest.take (Token.piece c rest).more)) hk
      by_cases hle : (Token.piece c rest).more ≤ rest.length
      · obtain ⟨shorter, hcut, hlength, hshorter⟩ := lexFrom_cut start rfl hle hrest
        refine ⟨shorter, hcut, ?_⟩
        rw [hshorter, hlength, List.append_assoc, ← hlex, lexFrom]
        cases (Token.piece c rest).token <;> simp [resume]
      · obtain rfl : tail = [] := by
          have hnil : resume (c :: rest) = [] := List.drop_eq_nil_of_le (Nat.le_of_not_le hle)
          simp_all
        exact ⟨c :: rest, by simp, by simp [lexFrom]⟩

/-- A comment at the front of a text, with what stands before and behind its first closing mark. -/
def commented (body after : List Char) : List Char := '/' :: '*' :: (body ++ '*' :: '/' :: after)

/-- The number of characters behind its first closing mark that a comment takes along. -/
def overrun (body after : List Char) : Nat :=
  if Even (Token.endStars body) then 0 else Token.commentLength after

variable {source : String} {body after : List Char}

theorem piece_commented (hfirst : ¬ ['*', '/'] <:+: body) (after : List Char) :
    Token.piece '/' ('*' :: (body ++ '*' :: '/' :: after)) =
      ⟨none, body.length + (overrun body after + 2) + 1⟩ := by
  simp only [Token.piece, Token.commentLength_mark hfirst, overrun, Token.Piece.mk.injEq, true_and]
  omega

theorem resume_commented (hfirst : ¬ ['*', '/'] <:+: body) (after : List Char) :
    resume (commented body after) = after.drop (overrun body after) := by
  simp [commented, resume, piece_commented hfirst]

theorem lexFrom_commented (hfirst : ¬ ['*', '/'] <:+: body) (start : Nat) (after : List Char) :
    lexFrom start (commented body after) =
      lexFrom (start + byteLength (commented body (after.take (overrun body after))))
        (after.drop (overrun body after)) := by
  rw [← resume_commented hfirst, commented, lexFrom]
  simp [piece_commented hfirst, resume, commented, byteLength, List.take_length_add_append]
  rw [Nat.add_assoc]

/-- A block comment ends at its first closing mark, and the lexer goes on right behind it, exactly
if an even number of stars stands before the mark or nothing behind it. In any case the lexemes are
those of the text before the comment and those behind what the comment takes along. -/
theorem comment_ends_at_first_mark (hscan : Scans source.toList (commented body after))
    (hfirst : ¬ ['*', '/'] <:+: body) :
    (resume (commented body after) = after ↔ Even (Token.endStars body) ∨ after = []) ∧
    ∃ before, source.toList = before ++ commented body after ∧
      lex source = lexFrom 0 before ++ lexFrom
        (byteLength (before ++ commented body (after.take (overrun body after))))
        (after.drop (overrun body after)) := by
  constructor
  · rw [resume_commented hfirst, overrun]
    split
    · simp [*]
    · cases after with
      | nil => simp
      | cons c after =>
        have hpos := Token.commentLength_pos (List.cons_ne_nil c after)
        have hshort : (c :: after).drop (Token.commentLength (c :: after)) ≠ c :: after := by
          intro h
          have hlength := congrArg List.length h
          rw [List.length_drop, List.length_cons] at hlength
          omega
        simp [*]
  · obtain ⟨before, hsource, hlex⟩ := hscan.lexFrom_eq 0
    refine ⟨before, hsource, ?_⟩
    rw [lex, hlex, lexFrom_commented hfirst, Nat.zero_add, byteLength_append]

/-- Of two stars before the slash the first takes the second along, and the comment runs on to the
next closing mark. -/
theorem comment_ends_at_first_mark_swallowed :
    Scans "a /* b **/ c */ d".toList (commented " b *".toList " c */ d".toList) ∧
      resume (commented " b *".toList " c */ d".toList) ≠ " c */ d".toList ∧
      (lex "a /* b **/ c */ d").map Lexeme.span = [⟨0, 1⟩, ⟨16, 17⟩] := by
  have hscan : Scans "a /* b **/ c */ d".toList (commented " b *".toList " c */ d".toList) :=
    ⟨2, by decide +kernel⟩
  obtain ⟨hends, before, hsource, hlex⟩ := comment_ends_at_first_mark hscan (by decide +kernel)
  obtain rfl : before = "a ".toList :=
    List.append_cancel_right (hsource.symm.trans (by decide +kernel))
  refine ⟨hscan, fun h => absurd (hends.mp h) (by decide +kernel), ?_⟩
  rw [hlex]
  decide +kernel

/-- Of three stars in a row the second takes the third along, so the first closing mark is missed
and the word behind it goes with the comment. -/
theorem first_mark_missed :
    Scans "/***/ node".toList (commented ['*'] " node".toList) ∧ ¬ ['*', '/'] <:+: ['*'] ∧
      lex "/***/ node" = [] ∧ (lexFrom 5 " node".toList).map Lexeme.span = [⟨6, 10⟩] := by
  refine ⟨⟨0, by decide +kernel⟩, by decide +kernel, List.isEmpty_iff.mp (by decide +kernel), ?_⟩
  decide +kernel

end Flexbox.Fixture
