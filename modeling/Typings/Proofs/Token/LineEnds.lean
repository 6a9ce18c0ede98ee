import Typings.Proofs.Token.Breaking
import Typings.Proofs.Token.Filling
import Typings.Text.Utf8
/-!
# Line ends with a carriage return

A text may have a carriage return in front of each line feed.  A carriage return is a blank, and no token
has a line feed, so the gaps and tokens are the same ones, with the returns in the gaps only.  A line feed
starts a new line at its first column, whatever stands in front of it.

* `Text.crlf`                the text with a carriage return in front of each line feed;
* `Filler.crlf`              ignored text stays ignored;
* `Pattern.gap_crlf`         the gap in front of a token;
* `Token.read?_crlf`         the token behind it;
* `Cursor.seen`              a place by its line and column only;
* `Cursor.seen_advance_crlf` the places are the same.
-/

namespace Typings

/-- the text with a carriage return in front of each line feed -/
def Text.crlf (t : Text) : Text :=
  t.flatMap fun x : CodePoint => if x = '\n' then [.scalar '\r', .scalar '\n'] else [x]

namespace Text

@[simp] theorem crlf_nil : crlf [] = [] := rfl

@[simp] theorem crlf_lineFeed (t : Text) :
    crlf (.scalar '\n' :: t) = .scalar '\r' :: .scalar '\n' :: crlf t := rfl

theorem crlf_cons {x : CodePoint} (line : x ≠ '\n') (t : Text) : crlf (x :: t) = x :: crlf t := by
  rw [crlf, List.flatMap_cons, if_neg line]
  rfl

theorem crlf_append (s t : Text) : crlf (s ++ t) = crlf s ++ crlf t := List.flatMap_append

/-- a text of one line stays as it is -/
theorem crlf_line {t : Text} (line : ∀ x ∈ t, x ≠ '\n') : crlf t = t := by
  induction t with
  | nil => rfl
  | cons x t ih =>
    obtain ⟨first, others⟩ := List.forall_mem_cons.mp line
    rw [crlf_cons first, ih others]

/-- the line ends are unified to the line feeds that they are made from -/
theorem unifyLineEnds_crlf {t : Text} (plain : .scalar '\r' ∉ t) : unifyLineEnds t.crlf = t := by
  induction t with
  | nil => rfl
  | cons x t ih =>
    obtain ⟨notReturn, others⟩ := not_or.mp (mt List.mem_cons.mpr plain)
    by_cases line : x = '\n'
    · subst line
      rw [crlf_lineFeed, unifyLineEnds, ih others]
    · rw [crlf_cons line, unifyLineEnds, ih others]
      · exact fun _ e _ => notReturn e.symm
      · exact fun e => notReturn e.symm

/-- a text with carriage returns has a front of one line, that ends with none, if the text without them
does -/
theorem eq_of_crlf_eq_append {t piece behind : Text} (h : crlf t = piece ++ behind)
    (line : ∀ x ∈ piece, x ≠ '\n') (last : ∀ x ∈ piece.getLast?, x ≠ '\r') :
    ∃ rest, t = piece ++ rest ∧ behind = crlf rest := by
  induction piece generalizing t with
  | nil => exact ⟨t, rfl, h.symm⟩
  | cons x piece ih =>
    obtain ⟨first, others⟩ := List.forall_mem_cons.mp line
    cases t with
    | nil => cases h
    | cons y t =>
      by_cases lineFeed : y = '\n'
      · subst lineFeed
        obtain ⟨rfl, e⟩ := List.cons.inj h
        cases piece with
        | nil => exact absurd rfl (last _ rfl)
        | cons z piece =>
          obtain ⟨rfl, _⟩ := List.cons.inj e
          exact absurd rfl (others _ List.mem_cons_self)
      · rw [crlf_cons lineFeed] at h
        obtain ⟨rfl, e⟩ := List.cons.inj h
        have last' : ∀ x ∈ piece.getLast?, x ≠ '\r' := by
          cases piece with
          | nil => exact fun _ none => nomatch none
          | cons z piece =>
            rw [List.getLast?_cons_cons] at last
            exact last
        obtain ⟨rest, rfl, behind⟩ := ih e others last'
        exact ⟨rest, rfl, behind⟩

/-- both texts break off at the first line feed -/
theorem breaks_crlf (t : Text) : Breaks t.crlf t ∧ Breaks t t.crlf := by
  induction t with
  | nil => exact ⟨.refl [], .refl []⟩
  | cons x t ih =>
    by_cases line : x = '\n'
    · subst line
      constructor <;> refine .of_not_solid ?_ <;> (rintro x ⟨⟩; rfl)
    · rw [crlf_cons line]
      exact ⟨ih.1.append [x], ih.2.append [x]⟩

end Text

/-! ## Gaps -/

namespace Pattern

theorem untilStarSlash_crlf (t : Text) :
    untilStarSlash t.crlf = (untilStarSlash t).map fun p => (p.1.crlf, p.2.crlf) := by
  fun_induction untilStarSlash t with
  | case1 => rfl
  | case2 t =>
    rw [Text.crlf_cons (by decide), Text.crlf_cons (by decide)]
    rfl
  | case3 x t apart ih =>
    rw [Option.map_map]
    by_cases line : x = '\n'
    · subst line
      rw [Text.crlf_lineFeed, untilStarSlash, untilStarSlash, ih, Option.map_map, Option.map_map]
      · rfl
      · exact fun _ e _ => nomatch e
      · exact fun _ e _ => nomatch e
    · rw [Text.crlf_cons line, untilStarSlash, ih, Option.map_map]
      · cases untilStarSlash t with
        | none => rfl
        | some p =>
          show some _ = some _
          rw [Function.comp, Function.comp, Text.crlf_cons line]
      · intro more star e
        have split : Text.crlf t = [.scalar '/'] ++ more := e
        obtain ⟨rest, rfl, _⟩ := Text.eq_of_crlf_eq_append split (by decide) (by decide)
        exact apart rest star rfl

/-- what is not ignored is not ignored with carriage returns -/
theorem ignored_crlf_eq_none {t : Text} (h : ignored t = none) : ignored t.crlf = none := by
  cases t with
  | nil => rfl
  | cons x t =>
    have blank : x.isBlank = false :=
      Bool.eq_false_iff.mpr fun isBlank => not_begins_of_ignored h (Text.begins_cons.mpr isBlank)
    have line : x ≠ '\n' := by
      rintro rfl
      cases blank
    rw [Text.crlf_cons line]
    by_cases slash : x = '/'
    · subst slash
      cases t with
      | nil => rfl
      | cons y t =>
        rw [ignored, blank_of_slash, Option.none_or, Option.or_eq_none_iff] at h ⊢
        obtain ⟨noLine, noBlock⟩ := h
        by_cases feed : y = '\n'
        · subst feed
          exact ⟨rfl, rfl⟩
        rw [Text.crlf_cons feed]
        by_cases star : y = '*'
        · subst star
          rw [blockComment, Option.map_eq_none_iff] at noBlock
          exact ⟨rfl, by rw [blockComment, untilStarSlash_crlf, noBlock]; rfl⟩
        · have slash : y ≠ '/' := by
            rintro rfl
            cases noLine
          constructor
          · rw [lineComment.eq_def]
            split
            · rename_i e
              exact absurd (List.cons.inj (List.cons.inj e).2).1 slash
            · rfl
          · rw [blockComment.eq_def]
            split
            · rename_i e
              exact absurd (List.cons.inj (List.cons.inj e).2).1 star
            · rfl
    · exact ignored_eq_none blank slash

end Pattern

/-- ignored text stays ignored -/
theorem Filler.crlf {filler : Text} (h : Filler filler) : Filler filler.crlf := by
  induction h with
  | nil => exact .nil
  | @blank x more isBlank _ ih =>
    by_cases line : x = '\n'
    · subst line
      exact .blank rfl (.blank rfl ih)
    · rw [Text.crlf_cons line]
      exact .blank isBlank ih
  | @lineComment body more line _ ih =>
    have comment : Text.crlf (.scalar '/' :: .scalar '/' :: (body ++ .scalar '\n' :: more)) =
        .scalar '/' :: .scalar '/' :: ((body ++ [.scalar '\r']) ++ .scalar '\n' :: Text.crlf more) := by
      rw [Text.crlf_cons (by decide), Text.crlf_cons (by decide), Text.crlf_append, Text.crlf_line line,
        Text.crlf_lineFeed, List.append_assoc]
      rfl
    rw [comment]
    exact .lineComment (List.forall_mem_append.mpr ⟨line, by decide⟩) ih
  | @blockComment body more first _ ih =>
    have ending (more : Text) : Text.crlf (body ++ .scalar '*' :: .scalar '/' :: more) =
        Text.crlf body ++ .scalar '*' :: .scalar '/' :: Text.crlf more := by
      rw [Text.crlf_append, Text.crlf_cons (by decide), Text.crlf_cons (by decide)]
    rw [Text.crlf_cons (by decide), Text.crlf_cons (by decide), ending]
    have found := Pattern.untilStarSlash_crlf (body ++ .scalar '*' :: .scalar '/' :: [])
    rw [Pattern.untilStarSlash_append [] first, Option.map_some, ending, Text.crlf_nil] at found
    obtain ⟨_, _, first'⟩ := Pattern.untilStarSlash_spec found
    exact .blockComment first' ih

theorem FillerAtEnd.crlf {filler : Text} (h : FillerAtEnd filler) : FillerAtEnd filler.crlf := by
  cases h with
  | whole isFiller => exact .whole isFiller.crlf
  | lineComment isFiller line =>
    rw [Text.crlf_append, Text.crlf_cons (by decide), Text.crlf_cons (by decide), Text.crlf_line line]
    exact .lineComment isFiller.crlf line

/-- the gap at the front of a text has the carriage returns of the text -/
theorem Pattern.gap_crlf (t : Text) : gap t.crlf = ((gap t).1.crlf, (gap t).2.crlf) := by
  have ends := ignored_gap t
  have ends' := ignored_crlf_eq_none ends
  have fillers := (gap_isGap t).filler (not_begins_of_ignored ends)
  have isGap : Gap (gap t).1.crlf (gap t).2.crlf := by
    by_cases none : (gap t).2 = []
    · rw [none]
      exact (fillers.2 none).crlf.isGap
    · exact (fillers.1 none).crlf.isGap (not_begins_of_ignored ends')
  have whole := gap_of_isGap isGap ends'
  rwa [← Text.crlf_append, gap_append] at whole

/-! ## Tokens -/

theorem QuotedBody.line {quote : Char} {body : Text} (h : QuotedBody quote body) :
    ∀ x ∈ body, x ≠ '\n' := by
  induction h with
  | nil => exact fun _ mem => nomatch mem
  | plain _ line _ _ ih => exact List.forall_mem_cons.mpr ⟨line, ih⟩
  | escaped line _ ih => exact List.forall_mem_cons.mpr ⟨by decide, List.forall_mem_cons.mpr ⟨line, ih⟩⟩

theorem Decimals.solid {piece rest : Text} (h : Decimals piece rest) : ∀ x ∈ piece, x.isSolid = true := by
  cases h with
  | whole _ all => exact fun x mem => CodePoint.isSolid_of_isDecimal (all x mem)
  | fraction _ all _ allMore =>
    refine List.forall_mem_append.mpr ⟨fun x mem => CodePoint.isSolid_of_isDecimal (all x mem), ?_⟩
    exact List.forall_mem_cons.mpr
      ⟨by decide, fun x mem => CodePoint.isSolid_of_isDecimal (allMore x mem)⟩

namespace Terminal.Matches
variable {kind : Terminal} {piece rest : Text}

/-- a token is solid, or else quoted text -/
theorem solid_or_quoted (h : kind.Matches piece rest) :
    (∀ x ∈ piece, x.isSolid = true) ∨ ∃ (quote : Char) (body : Text), (quote = '"' ∨ quote = '\'') ∧
      QuotedBody quote body ∧ piece = .scalar quote :: (body ++ [.scalar quote]) := by
  cases h with
  | name isName =>
    refine .inl fun x mem => ?_
    exact CodePoint.isSolid_of_isNamePart (Text.isNamePart_of_isName isName x mem)
  | string isQuote quoted => exact .inr ⟨_, _, isQuote, quoted, rfl⟩
  | hexadecimal isX _ all =>
    refine .inl (List.forall_mem_cons.mpr ⟨by decide, List.forall_mem_cons.mpr ⟨?_, fun x mem => ?_⟩⟩)
    · rcases isX with rfl | rfl <;> decide
    · exact CodePoint.isSolid_of_isHexDigit (all x mem)
  | decimal isDecimal => exact .inl isDecimal.solid
  | negative isDecimal => exact .inl (List.forall_mem_cons.mpr ⟨by decide, isDecimal.solid⟩)
  | spelled spelling => exact .inl (CodePoint.isSolid_of_spelling spelling)

/-- a token is of one line, and does not end with a carriage return -/
theorem line (h : kind.Matches piece rest) :
    (∀ x ∈ piece, x ≠ '\n') ∧ ∀ x ∈ piece.getLast?, x ≠ '\r' := by
  rcases h.solid_or_quoted with solid | ⟨quote, body, isQuote, quoted, rfl⟩
  · constructor
    · rintro x mem rfl
      cases solid _ mem
    · rintro x last rfl
      cases solid _ (List.mem_of_getLast? last)
  · constructor
    · refine List.forall_mem_cons.mpr ⟨?_, List.forall_mem_append.mpr ⟨quoted.line, ?_⟩⟩ <;>
        rcases isQuote with rfl | rfl <;> decide
    · intro x last
      rw [← List.cons_append, List.getLast?_concat] at last
      cases last
      rcases isQuote with rfl | rfl <;> decide

end Terminal.Matches

namespace Token

/-- the token at the front of a text is that of the text with carriage returns -/
theorem read?_crlf (admitted : Terminal → Bool) (t : Text) :
    read? admitted t.crlf = (read? admitted t).map fun p => (p.1, p.2.1, p.2.2.crlf) := by
  cases found : read? admitted t with
  | some p =>
    obtain ⟨kind, piece, rest⟩ := p
    obtain ⟨isToken, rfl⟩ := matches_of_read? found
    rw [Text.crlf_append, Text.crlf_line isToken.line.1]
    exact read?_of_breaks found (Text.breaks_crlf rest).1
  | none =>
    refine Option.eq_none_iff_forall_ne_some.mpr fun p found' => ?_
    obtain ⟨kind, piece, behind⟩ := p
    obtain ⟨isToken, split⟩ := matches_of_read? found'
    obtain ⟨rest, rfl, rfl⟩ := Text.eq_of_crlf_eq_append split.symm isToken.line.1 isToken.line.2
    rw [← split] at found'
    rw [read?_of_breaks found' (Text.breaks_crlf rest).2] at found
    cases found

end Token

/-! ## Places -/

namespace Cursor

/-- a place by its line and column only -/
def seen (c : Cursor) : Cursor := { c with offset := 0 }

theorem seen_step {c d : Cursor} (h : c.seen = d.seen) (x : CodePoint) : (c.step x).seen = (d.step x).seen := by
  obtain ⟨_, _, _⟩ := c
  obtain ⟨_, _, _⟩ := d
  cases h
  unfold step
  split <;> rfl

theorem seen_advance {c d : Cursor} (h : c.seen = d.seen) (t : Text) :
    (c.advance t).seen = (d.advance t).seen := by
  induction t generalizing c d with
  | nil => exact h
  | cons x t ih => exact ih (seen_step h x)

/-- a line starts where it does without the carriage return -/
theorem seen_advance_crlf {c d : Cursor} (h : c.seen = d.seen) (t : Text) :
    (c.advance t.crlf).seen = (d.advance t).seen := by
  induction t generalizing c d with
  | nil => exact h
  | cons x t ih =>
    by_cases line : x = '\n'
    · subst line
      refine ih ?_
      obtain ⟨_, _, _⟩ := c
      obtain ⟨_, _, _⟩ := d
      cases h
      rfl
    · rw [Text.crlf_cons line]
      exact ih (seen_step h x)

end Cursor

end Typings
