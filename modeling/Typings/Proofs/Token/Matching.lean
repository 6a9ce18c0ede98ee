import Typings.Token.Basic
/-!
# What tokens and ignored text look like

The patterns take pieces off the front of a text.  Here it is said what such a piece is in front of
the text that is left behind it, and that the patterns take no other pieces.

* `Text.Begins p t`           the first code point of a text is of a class;
* `Ignorable piece rest`      blanks, or a line comment, or a block comment, as far as it goes;
* `Gap gap rest`              a row of such pieces;
* `Terminal.Matches`          what a token of a class is;
* `Pattern.gap_isGap`         `Pattern.gap` takes a gap;
* `Token.matches_of_read?`    `Token.read?` takes a token of the class that it tells.
-/

namespace Typings

/-- the first code point of a text is of a class -/
def Text.Begins (p : CodePoint → Bool) (t : Text) : Prop := ∃ x ∈ t.head?, p x = true

/-! ## Ignored text -/

/-- a piece of ignored text in front of a rest; blanks and line comments go as far as they can, and
a block comment ends at the first `*/` -/
inductive Ignorable : Text → Text → Prop
  | blank {piece rest : Text} (some : piece ≠ []) (all : ∀ x ∈ piece, x.isBlank = true)
      (whole : ¬ rest.Begins CodePoint.isBlank) : Ignorable piece rest
  | lineComment {body rest : Text} (line : ∀ x ∈ body, x ≠ '\n')
      (whole : rest = [] ∨ ∃ more, rest = .scalar '\n' :: more) :
      Ignorable (.scalar '/' :: .scalar '/' :: body) rest
  | blockComment {body rest : Text}
      (first : ∀ s t : Text, body ++ [.scalar '*', .scalar '/'] = s ++ .scalar '*' :: .scalar '/' :: t →
        t = []) :
      Ignorable (.scalar '/' :: .scalar '*' :: (body ++ [.scalar '*', .scalar '/'])) rest

/-- a row of pieces of ignored text in front of a rest -/
inductive Gap : Text → Text → Prop
  | nil (rest : Text) : Gap [] rest
  | cons {piece more rest : Text} (here : Ignorable piece (more ++ rest)) (further : Gap more rest) :
      Gap (piece ++ more) rest

/-! ## Tokens -/

/-- the text between quotes: no quote and no line feed, and a backslash only with a code point
behind it that is no line feed -/
inductive QuotedBody (quote : Char) : Text → Prop
  | nil : QuotedBody quote []
  | plain {x : CodePoint} {body : Text} (quote_ne : x ≠ quote) (line : x ≠ '\n') (plain : x ≠ '\\')
      (further : QuotedBody quote body) : QuotedBody quote (x :: body)
  | escaped {y : CodePoint} {body : Text} (line : y ≠ '\n') (further : QuotedBody quote body) :
      QuotedBody quote (.scalar '\\' :: y :: body)

/-- decimal digits in front of a rest, with a point and more digits if they follow -/
inductive Decimals : Text → Text → Prop
  | whole {digits rest : Text} (some : digits ≠ []) (all : ∀ x ∈ digits, x.isDecimal = true)
      (longest : ¬ rest.Begins CodePoint.isDecimal)
      (point : ∀ more : Text, rest = .scalar '.' :: more → ¬ more.Begins CodePoint.isDecimal) :
      Decimals digits rest
  | fraction {digits more rest : Text} (some : digits ≠ []) (all : ∀ x ∈ digits, x.isDecimal = true)
      (someMore : more ≠ []) (allMore : ∀ x ∈ more, x.isDecimal = true)
      (longest : ¬ rest.Begins CodePoint.isDecimal) : Decimals (digits ++ .scalar '.' :: more) rest

/-- a piece of text is a token of a class in front of a rest: names and numbers go as far as they
can, and the token of a keyword or a punctuation mark is its spelling -/
inductive Terminal.Matches : Terminal → Text → Text → Prop
  | name {piece rest : Text} (isName : piece.isName = true)
      (whole : ¬ rest.Begins CodePoint.isNamePart) : Matches .NAME piece rest
  | string {quote : Char} {body rest : Text} (isQuote : quote = '"' ∨ quote = '\'')
      (quoted : QuotedBody quote body) :
      Matches .STRING (.scalar quote :: (body ++ [.scalar quote])) rest
  | hexadecimal {x : Char} {digits rest : Text} (isX : x = 'x' ∨ x = 'X') (some : digits ≠ [])
      (all : ∀ y ∈ digits, y.isHexDigit = true) (whole : ¬ rest.Begins CodePoint.isHexDigit) :
      Matches .NUMERAL (.scalar '0' :: .scalar x :: digits) rest
  | decimal {piece rest : Text} (isDecimal : Decimals piece rest)
      (notHex : ∀ (x : Char) (more : Text), x = 'x' ∨ x = 'X' →
        piece ++ rest = .scalar '0' :: .scalar x :: more → ¬ more.Begins CodePoint.isHexDigit) :
      Matches .NUMERAL piece rest
  | negative {piece rest : Text} (isDecimal : Decimals piece rest) :
      Matches .NUMERAL (.scalar '-' :: piece) rest
  | spelled {t : Terminal} {s : String} {rest : Text} (spelling : t.spelling? = some s) :
      Matches t s rest

/-- no keyword and no punctuation mark is spelled by no text -/
theorem Terminal.ofString_ne_nil {t : Terminal} {s : String} (h : t.spelling? = some s) :
    Text.ofString s ≠ [] := by
  cases t <;> cases h <;> decide

theorem Decimals.ne_nil {piece rest : Text} (h : Decimals piece rest) : piece ≠ [] := by
  cases h with
  | whole some => exact some
  | fraction => exact List.append_ne_nil_of_right_ne_nil _ (List.cons_ne_nil _ _)

theorem Terminal.Matches.ne_nil {t : Terminal} {piece rest : Text} (h : t.Matches piece rest) :
    piece ≠ [] := by
  cases h with
  | name isName => rintro rfl; cases isName
  | string | hexadecimal | negative => exact List.cons_ne_nil _ _
  | decimal isDecimal => exact isDecimal.ne_nil
  | spelled spelling => exact ofString_ne_nil spelling

/-- the end of the text is no token -/
theorem Terminal.Matches.ne_end {t : Terminal} {piece rest : Text} (h : t.Matches piece rest) :
    t ≠ .END := by
  rintro rfl
  cases h with
  | spelled spelling => cases spelling

/-- a token of a keyword is spelled like it -/
theorem Terminal.Matches.exists_spelling {kind : Terminal} {piece rest : Text} (h : kind.Matches piece rest)
    (word : kind.isKeyword = true) : ∃ s, kind.spelling? = some s ∧ piece = Text.ofString s := by
  cases h with
  | spelled spelling => exact ⟨_, spelling, rfl⟩
  | _ => cases word

/-! ## The patterns of ignored text -/

namespace Pattern

theorem not_begins_dropWhile (p : CodePoint → Bool) (t : Text) :
    ¬ Text.Begins p (t.dropWhile p) := by
  rintro ⟨x, hx, hp⟩
  have h := List.head?_dropWhile_not p t
  rw [Option.mem_def.mp hx] at h
  exact Bool.false_ne_true (h.symm.trans hp)

theorem all_takeWhile (p : CodePoint → Bool) (t : Text) : ∀ x ∈ t.takeWhile p, p x = true := by
  intro x hx
  exact List.all_eq_true.mp List.all_takeWhile x hx

/-- `many1` takes code points of its class only, and all of them -/
theorem many1_spec {p : CodePoint → Bool} {t : Text} {found : Text × Text}
    (h : many1 p t = some found) :
    found.1 ≠ [] ∧ (∀ x ∈ found.1, p x = true) ∧ ¬ found.2.Begins p := by
  refine ⟨ne_nil_of_many1 h, ?_⟩
  rw [many1] at h
  split at h
  · cases h
  · rename_i x piece e
    cases h
    rw [← e]
    exact ⟨all_takeWhile p t, not_begins_dropWhile p t⟩

theorem not_begins_of_many1 {p : CodePoint → Bool} {t : Text} (h : many1 p t = none) :
    ¬ t.Begins p := by
  rintro ⟨x, hx, hp⟩
  cases t with
  | nil => cases hx
  | cons y t =>
    cases hx
    simp [many1, hp] at h

theorem lineComment_ignorable {t : Text} {p : Text × Text} (h : lineComment t = some p) :
    Ignorable p.1 p.2 := by
  rw [lineComment.eq_def] at h
  split at h
  · rename_i t
    cases h
    refine .lineComment (fun x hx => ?_) ?_
    · exact of_decide_eq_true (all_takeWhile _ t x hx)
    · have e := not_begins_dropWhile (fun x => decide (x ≠ .scalar '\n')) t
      cases hd : t.dropWhile (fun x => decide (x ≠ .scalar '\n')) with
      | nil => exact .inl rfl
      | cons x more =>
        by_cases hx : x = .scalar '\n'
        · exact .inr ⟨more, by rw [hx]⟩
        · exact absurd ⟨x, by rw [hd]; rfl, decide_eq_true hx⟩ e
  · cases h

/-- the piece up to `*/` has this end, and no other -/
theorem untilStarSlash_spec {t : Text} {p : Text × Text} (h : untilStarSlash t = some p) :
    ∃ body : Text, p.1 = body ++ [.scalar '*', .scalar '/'] ∧
      ∀ s u : Text, p.1 = s ++ .scalar '*' :: .scalar '/' :: u → u = [] := by
  fun_induction untilStarSlash t generalizing p with
  | case1 => cases h
  | case2 t =>
    cases h
    refine ⟨[], rfl, fun s u e => ?_⟩
    have hlen := congrArg List.length e
    simp only [List.length_cons, List.length_nil, List.length_append] at hlen
    exact List.length_eq_zero_iff.mp (by omega)
  | case3 x t front ih =>
    obtain ⟨q, found, rfl⟩ := Option.map_eq_some_iff.mp h
    obtain ⟨body, hbody, first⟩ := ih found
    refine ⟨x :: body, congrArg (x :: ·) hbody, fun s u e => ?_⟩
    cases s with
    | nil =>
      -- the comment would have ended one code point before
      obtain ⟨rfl, hq⟩ := List.cons.inj e
      refine absurd ?_ (front (u ++ q.2) rfl)
      rw [← append_of_untilStarSlash found, hq, List.cons_append]
    | cons y s => exact first s u (List.cons.inj e).2

theorem blockComment_ignorable {t : Text} {p : Text × Text} (h : blockComment t = some p) :
    Ignorable p.1 p.2 := by
  rw [blockComment.eq_def] at h
  split at h
  · obtain ⟨q, found, rfl⟩ := Option.map_eq_some_iff.mp h
    obtain ⟨body, hbody, first⟩ := untilStarSlash_spec found
    rw [hbody] at first
    show Ignorable (.scalar '/' :: .scalar '*' :: q.1) q.2
    rw [hbody]
    exact .blockComment first
  · cases h

theorem ignored_ignorable {t : Text} {p : Text × Text} (h : ignored t = some p) :
    Ignorable p.1 p.2 := by
  rw [ignored, Option.or_eq_some_iff, Option.or_eq_some_iff] at h
  rcases h with (h | ⟨_, h⟩) | ⟨_, h⟩
  · obtain ⟨some, all, whole⟩ := many1_spec h
    exact .blank some all whole
  · exact lineComment_ignorable h
  · exact blockComment_ignorable h

theorem gapWithin_isGap (fuel t : Text) : Gap (gapWithin fuel t).1 (gapWithin fuel t).2 := by
  induction fuel generalizing t with
  | nil => exact .nil t
  | cons _ fuel ih =>
    rw [gapWithin]
    split
    · exact .nil t
    · rename_i piece rest h
      refine .cons ?_ (ih rest)
      rw [gapWithin_append]
      exact ignored_ignorable h

/-- the ignored text at the front of a text is a gap -/
theorem gap_isGap (t : Text) : Gap (gap t).1 (gap t).2 := gapWithin_isGap t t

/-! ## The patterns of tokens -/

theorem matches_of_name {t : Text} {p : Text × Text} (h : name t = some p) :
    Terminal.Matches .NAME p.1 p.2 := by
  cases t with
  | nil => cases h
  | cons x t =>
    rw [name] at h
    split at h
    · rename_i hx
      cases h
      refine .name ?_ (not_begins_dropWhile CodePoint.isNamePart t)
      rw [Text.isName, hx, Bool.true_and]
      exact List.all_takeWhile
    · cases h

theorem untilQuote_spec {quote : Char} {t : Text} {p : Text × Text}
    (h : untilQuote quote t = some p) :
    ∃ body : Text, p.1 = body ++ [.scalar quote] ∧ QuotedBody quote body := by
  fun_induction untilQuote quote t generalizing p with
  | case1 | case2 | case5 => cases h
  | case3 y t line ih =>
    obtain ⟨q, found, rfl⟩ := Option.map_eq_some_iff.mp h
    obtain ⟨body, hbody, quoted⟩ := ih found
    exact ⟨.scalar '\\' :: y :: body, by rw [hbody]; rfl, .escaped line quoted⟩
  | case4 t =>
    cases h
    exact ⟨[], rfl, .nil⟩
  | case6 x t _ quote_ne rest_ne ih =>
    obtain ⟨q, found, rfl⟩ := Option.map_eq_some_iff.mp h
    obtain ⟨body, hbody, quoted⟩ := ih found
    obtain ⟨line, plain⟩ := not_or.mp rest_ne
    exact ⟨x :: body, by rw [hbody]; rfl, .plain quote_ne line plain quoted⟩

theorem matches_of_quoted {t : Text} {p : Text × Text} (h : quoted t = some p) :
    Terminal.Matches .STRING p.1 p.2 := by
  rw [quoted.eq_def] at h
  split at h
  · obtain ⟨q, found, rfl⟩ := Option.map_eq_some_iff.mp h
    obtain ⟨body, hbody, isBody⟩ := untilQuote_spec found
    show Terminal.Matches .STRING (.scalar '"' :: q.1) q.2
    rw [hbody]
    exact .string (.inl rfl) isBody
  · obtain ⟨q, found, rfl⟩ := Option.map_eq_some_iff.mp h
    obtain ⟨body, hbody, isBody⟩ := untilQuote_spec found
    show Terminal.Matches .STRING (.scalar '\'' :: q.1) q.2
    rw [hbody]
    exact .string (.inr rfl) isBody
  · cases h

theorem decimals_spec {t : Text} {p : Text × Text} (h : decimals t = some p) :
    Decimals p.1 p.2 := by
  rw [decimals, Option.map_eq_some_iff] at h
  obtain ⟨digits, found, h⟩ := h
  obtain ⟨some, all, longest⟩ := many1_spec found
  subst h
  split
  · rename_i rest e
    split
    · rename_i more foundMore
      obtain ⟨someMore, allMore, longestMore⟩ := many1_spec foundMore
      exact .fraction some all someMore allMore longestMore
    · rename_i noMore
      refine .whole some all longest fun more e' => ?_
      rw [e] at e'
      cases e'
      exact not_begins_of_many1 noMore
  · rename_i noPoint
    exact .whole some all longest fun more e => absurd e (noPoint more)

theorem matches_of_hexadecimal {t : Text} {p : Text × Text} (h : hexadecimal t = some p) :
    Terminal.Matches .NUMERAL p.1 p.2 := by
  rw [hexadecimal.eq_def] at h
  split at h
  · obtain ⟨q, found, rfl⟩ := Option.map_eq_some_iff.mp h
    obtain ⟨some, all, whole⟩ := many1_spec found
    exact .hexadecimal (.inl rfl) some all whole
  · obtain ⟨q, found, rfl⟩ := Option.map_eq_some_iff.mp h
    obtain ⟨some, all, whole⟩ := many1_spec found
    exact .hexadecimal (.inr rfl) some all whole
  · cases h

theorem not_begins_of_hexadecimal {x : Char} {more : Text} (isX : x = 'x' ∨ x = 'X')
    (h : hexadecimal (.scalar '0' :: .scalar x :: more) = none) :
    ¬ more.Begins CodePoint.isHexDigit := by
  rcases isX with rfl | rfl
  · exact not_begins_of_many1 (Option.map_eq_none_iff.mp h)
  · exact not_begins_of_many1 (Option.map_eq_none_iff.mp h)

theorem matches_of_numeral {t : Text} {p : Text × Text} (h : numeral t = some p) :
    Terminal.Matches .NUMERAL p.1 p.2 := by
  rw [numeral, Option.or_eq_some_iff] at h
  rcases h with h | ⟨noHex, h⟩
  · exact matches_of_hexadecimal h
  · have whole := append_of_signed h
    rw [signed.eq_def] at h
    split at h
    · obtain ⟨q, found, rfl⟩ := Option.map_eq_some_iff.mp h
      exact .negative (decimals_spec found)
    · refine .decimal (decimals_spec h) fun x more isX e => ?_
      rw [← whole, e] at noHex
      exact not_begins_of_hexadecimal isX noHex

end Pattern

namespace Token

/-- a word is of the class of names or it is the spelling of its class -/
theorem matches_ofWord {admitted : Terminal → Bool} {piece rest : Text}
    (h : Terminal.Matches .NAME piece rest) :
    (Terminal.ofWord admitted piece).Matches piece rest := by
  rw [Terminal.ofWord]
  cases found : Terminal.all.find? fun t => admitted t && t.isWord piece with
  | none => exact h
  | some t =>
    have hword := List.find?_some found
    simp only [Terminal.isWord, Bool.and_eq_true, beq_iff_eq, Option.map_eq_some_iff] at hword
    obtain ⟨_, _, s, spelling, rfl⟩ := hword
    exact .spelled spelling

theorem matches_of_classed {admitted : Terminal → Bool} {t piece rest : Text} {kind : Terminal}
    (h : classed admitted t = some (kind, piece, rest)) :
    kind.Matches piece rest ∧ piece ++ rest = t := by
  simp only [classed, Option.or_eq_some_iff] at h
  rcases h with (h | ⟨_, h⟩) | ⟨_, h⟩
  · split at h
    · obtain ⟨p, found, e⟩ := Option.map_eq_some_iff.mp h
      cases e
      exact ⟨matches_ofWord (Pattern.matches_of_name found), Pattern.append_of_name found⟩
    · cases h
  · split at h
    · obtain ⟨p, found, e⟩ := Option.map_eq_some_iff.mp h
      cases e
      exact ⟨Pattern.matches_of_quoted found, Pattern.append_of_quoted found⟩
    · cases h
  · split at h
    · obtain ⟨p, found, e⟩ := Option.map_eq_some_iff.mp h
      cases e
      exact ⟨Pattern.matches_of_numeral found, Pattern.append_of_numeral found⟩
    · cases h

theorem matches_of_spelled {admitted : Terminal → Bool} {t piece rest : Text} {kind : Terminal}
    (h : spelled admitted t = some (kind, piece, rest)) :
    kind.Matches piece rest ∧ piece ++ rest = t := by
  obtain ⟨k, _, h⟩ := List.exists_of_findSome?_eq_some h
  split at h
  · obtain ⟨s, spelling, h⟩ := Option.bind_eq_some_iff.mp h
    obtain ⟨p, found, e⟩ := Option.map_eq_some_iff.mp h
    cases e
    have whole := Pattern.append_of_exactly found
    obtain ⟨more, _, e⟩ := Option.map_eq_some_iff.mp found
    cases e
    exact ⟨.spelled spelling, whole⟩
  · cases h

/-- `read?` takes a token of the class that it tells off the front of the text -/
theorem matches_of_read? {admitted : Terminal → Bool} {t piece rest : Text} {kind : Terminal}
    (h : read? admitted t = some (kind, piece, rest)) :
    kind.Matches piece rest ∧ piece ++ rest = t := by
  rw [read?, Option.or_eq_some_iff] at h
  rcases h with h | ⟨_, h⟩
  · exact matches_of_classed h
  · exact matches_of_spelled h

end Token

end Typings
