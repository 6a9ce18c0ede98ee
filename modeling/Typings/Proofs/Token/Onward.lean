import Typings.Proofs.Token.Reading
/-!
# Texts that go on behind a blank

A blank ends every token that is not in quotes, and no token is spelled with one.  So what is read in
front of a blank does not depend on what comes behind it.

* `Text.onward x s t`                 a text with a code point and another text behind it;
* `Token.read?_onward`                the token at the front of a text is that of the text that goes on;
* `Token.read?_onward_eq_none`        a class that is not there does not come up, unless quotes are open;
* `Pattern.gap_onward`                the ignored text in front of a token is the same, too.
-/

namespace Typings

/-- a text with a code point and another text behind it -/
def Text.onward (x : CodePoint) (s t : Text) : Text := s ++ x :: t

theorem Text.onward_nil (x : CodePoint) (t : Text) : Text.onward x [] t = x :: t := rfl

theorem Text.onward_cons (x y : CodePoint) (s t : Text) :
    Text.onward x (y :: s) t = y :: Text.onward x s t := rfl

theorem Text.append_onward (x : CodePoint) (r s t : Text) :
    Text.onward x (r ++ s) t = r ++ Text.onward x s t := List.append_assoc ..

/-- a text goes on without anything that makes a token longer -/
theorem Text.not_begins_onward {p : CodePoint → Bool} {x : CodePoint} (ends : p x = false) {s : Text}
    (t : Text) (h : ¬ s.Begins p) : ¬ (Text.onward x s t).Begins p := by
  cases s with
  | nil =>
    rw [Text.onward_nil, Text.begins_cons, ends]
    exact Bool.false_ne_true
  | cons y s => exact h

/-! ## Blanks -/

namespace CodePoint

/-- the blanks -/
def blanks : List CodePoint := [.scalar ' ', .scalar '\t', .scalar '\x0c', .scalar '\r', .scalar '\n']

theorem mem_blanks {x : CodePoint} (h : x.isBlank = true) : x ∈ blanks := by
  cases x with
  | surrogate => cases h
  | scalar c =>
    simp only [isBlank, satisfies_scalar, Bool.or_eq_true, beq_iff_eq] at h
    rcases h with (((rfl | rfl) | rfl) | rfl) | rfl <;> decide

/-- a blank is no part of a name or a number -/
theorem blanks_end : ∀ x ∈ blanks, x.isNamePart = false ∧ x.isDecimal = false ∧ x.isHexDigit = false ∧
    x ≠ '.' ∧ x ≠ 'x' ∧ x ≠ 'X' := by decide

end CodePoint

variable {x : CodePoint} (blank : x.isBlank = true)
include blank

/-! ## Tokens -/

theorem Decimals.onward {piece rest : Text} (h : Decimals piece rest) (t : Text) :
    Decimals piece (Text.onward x rest t) := by
  obtain ⟨-, digit, -, point_ne, -⟩ := CodePoint.blanks_end x (CodePoint.mem_blanks blank)
  cases h with
  | whole some all longest point =>
    refine .whole some all (Text.not_begins_onward digit t longest) fun more e => ?_
    cases rest with
    | nil => exact absurd (List.cons.inj e).1 point_ne
    | cons y rest =>
      rw [Text.onward_cons] at e
      rw [← (List.cons.inj e).2]
      exact Text.not_begins_onward digit t (point rest (by rw [(List.cons.inj e).1]))
  | fraction some all someMore allMore longest =>
    exact .fraction some all someMore allMore (Text.not_begins_onward digit t longest)

theorem Terminal.Matches.onward {kind : Terminal} {piece rest : Text} (h : kind.Matches piece rest)
    (t : Text) : kind.Matches piece (Text.onward x rest t) := by
  obtain ⟨namePart, -, hexDigit, -, small_ne, large_ne⟩ :=
    CodePoint.blanks_end x (CodePoint.mem_blanks blank)
  cases h with
  | name isName whole => exact .name isName (Text.not_begins_onward namePart t whole)
  | string isQuote quoted => exact .string isQuote quoted
  | hexadecimal isX some all whole =>
    exact .hexadecimal isX some all (Text.not_begins_onward hexDigit t whole)
  | decimal isDecimal notHex =>
    refine .decimal (isDecimal.onward blank t) fun c more isX e => ?_
    rw [← Text.append_onward] at e
    generalize piece ++ rest = whole at notHex e
    match whole with
    | [] =>
      -- a blank is no digit
      have zero := (List.cons.inj e).1
      subst zero
      cases blank
    | [y] =>
      have second := (List.cons.inj (List.cons.inj e).2).1
      rcases isX with rfl | rfl
      · exact absurd second small_ne
      · exact absurd second large_ne
    | y :: z :: whole =>
      rw [Text.onward_cons, Text.onward_cons] at e
      obtain ⟨first, behind⟩ := List.cons.inj e
      obtain ⟨second, rfl⟩ := List.cons.inj behind
      exact Text.not_begins_onward hexDigit t (notHex c whole isX (by rw [first, second]))
  | negative isDecimal => exact .negative (isDecimal.onward blank t)
  | spelled spelling => exact .spelled spelling

namespace Pattern
variable (s t : Text)

omit blank in
/-- a piece is taken as before, and the text behind it goes on -/
def onward (x : CodePoint) (t : Text) (p : Text × Text) : Text × Text := (p.1, Text.onward x p.2 t)

theorem name_onward : name (Text.onward x s t) = (name s).map (onward x t) := by
  obtain ⟨namePart, -⟩ := CodePoint.blanks_end x (CodePoint.mem_blanks blank)
  cases found : name s with
  | none =>
    cases s with
    | nil =>
      rw [Text.onward_nil, name, if_neg]
      · rfl
      · intro start
        have := CodePoint.isNameStart_range start
        have := CodePoint.isBlank_le blank
        omega
    | cons y s =>
      rw [name] at found
      rw [Text.onward_cons, name]
      split at found
      · cases found
      · rename_i start
        rw [if_neg start]
        rfl
  | some p =>
    have isToken := matches_of_name found
    obtain ⟨piece, rest⟩ := p
    generalize e : Terminal.NAME = kind at isToken
    cases isToken with
    | name isName whole =>
      rw [← append_of_name found, Text.append_onward]
      exact name_append isName (Text.not_begins_onward namePart t whole)
    | spelled spelling =>
      subst e
      cases spelling
    | _ => cases e

/-- no number comes up behind a blank -/
theorem numeral_onward_eq_none {y : CodePoint} (h : numeral (y :: s) = none) :
    numeral (Text.onward x (y :: s) t) = none := by
  obtain ⟨-, digit, -⟩ := CodePoint.blanks_end x (CodePoint.mem_blanks blank)
  have decimals_none : ∀ {u : Text}, decimals u = none → ¬ u.Begins CodePoint.isDecimal := by
    intro u none
    exact not_begins_of_many1 (Option.map_eq_none_iff.mp none)
  have signed_none := (Option.or_eq_none_iff.mp h).2
  by_cases minus : y = .scalar '-'
  · subst minus
    have noDigits : decimals s = none := Option.map_eq_none_iff.mp signed_none
    have behind : decimals (Text.onward x s t) = none := by
      rw [decimals, many1_of_not_begins (Text.not_begins_onward digit t (decimals_none noDigits))]
      rfl
    rw [Text.onward_cons, numeral, hexadecimal.eq_def, signed, behind]
    rfl
  · have noDigits : decimals (y :: s) = none := by
      rw [signed.eq_def] at signed_none
      split at signed_none
      · rename_i e
        exact absurd (List.cons.inj e).1 minus
      · exact signed_none
    refine numeral_eq_none ?_ minus
    rw [← Bool.not_eq_true, ← Text.begins_cons]
    exact decimals_none noDigits

omit blank in
theorem after?_onward {front : Text} (apart : x ∉ front) :
    after? front (Text.onward x s t) = (after? front s).map (Text.onward x · t) := by
  induction front generalizing s with
  | nil => rfl
  | cons y front ih =>
    obtain ⟨ne, apart⟩ := not_or.mp (mt List.mem_cons.mpr apart)
    cases s with
    | nil =>
      show (if y = x then _ else none) = none
      exact if_neg (Ne.symm ne)
    | cons z s =>
      rw [Text.onward_cons, after?, after?, ih s apart]
      split <;> rfl

end Pattern

namespace Token
variable {admitted : Terminal → Bool} {s : Text} (t : Text)

omit blank in
theorem spelling_unblank : ∀ x ∈ CodePoint.blanks, ∀ k ∈ Terminal.all, ∀ spelling ∈ k.spelling?,
    x ∉ Text.ofString spelling := by decide

theorem spelled_onward :
    spelled admitted (Text.onward x s t) =
      (spelled admitted s).map fun p => (p.1, Pattern.onward x t p.2) := by
  unfold spelled
  induction Terminal.spelled with
  | nil => rfl
  | cons k ks ih =>
    rw [List.findSome?_cons, List.findSome?_cons, ih]
    by_cases isOpen : (admitted k && !(k.isKeyword && admitted .NAME)) = true
    · rw [if_pos isOpen, if_pos isOpen]
      cases spelling : k.spelling? with
      | none => rfl
      | some word =>
        have apart := spelling_unblank x (CodePoint.mem_blanks blank) k k.mem_all word spelling
        rw [Option.bind_some, Option.bind_some, Pattern.exactly, Pattern.exactly,
          Pattern.after?_onward s t apart]
        cases Pattern.after? word s <;> rfl
    · rw [if_neg isOpen, if_neg isOpen]

/-- a name, a string or a number at the front of a text is there when the text goes on behind a blank -/
theorem read?_onward_of_classed {kind : Terminal} {piece rest : Text} (isToken : kind.Matches piece rest)
    (whole : piece ++ rest = s) (h : classed admitted s = some (kind, piece, rest)) :
    read? admitted (Text.onward x s t) = some (kind, piece, Text.onward x rest t) := by
  rw [classed] at h
  simp only [Option.or_eq_some_iff] at h
  rcases h with (h | ⟨_, h⟩) | ⟨_, h⟩
  · split at h
    · rename_i name
      rw [read?, classed, if_pos name, Pattern.name_onward blank]
      obtain ⟨p, found, e⟩ := Option.map_eq_some_iff.mp h
      cases e
      rw [found]
      rfl
    · cases h
  · split at h
    · rename_i string
      obtain ⟨p, found, e⟩ := Option.map_eq_some_iff.mp h
      cases e
      rw [← whole, Text.append_onward]
      refine read?_of_matches (isToken.onward blank t) string ?_ ?_
      · rintro ⟨⟩
      · rintro ⟨_, _, ⟨⟩⟩
    · cases h
  · split at h
    · rename_i numeral
      obtain ⟨p, found, e⟩ := Option.map_eq_some_iff.mp h
      cases e
      rw [← whole, Text.append_onward]
      exact read?_numeral (isToken.onward blank t) numeral
    · cases h

/-- a word or a sign at the front of a text is there when the text goes on behind a blank -/
theorem read?_onward_of_spelled {kind : Terminal} {piece rest : Text} (whole : piece ++ rest = s)
    (noClass : classed admitted s = none) (h : spelled admitted s = some (kind, piece, rest)) :
    read? admitted (Text.onward x s t) = some (kind, piece, Text.onward x rest t) := by
  obtain ⟨word, spelling⟩ := exists_spelling h
  obtain ⟨y, more, e, _, _, double, single, digit, minus, _⟩ := Terminal.spelling_first spelling.1
  have behind : Text.onward x s t = y :: Text.onward x (more ++ rest) t := by
    rw [← whole, spelling.2, e]
    rfl
  have noName : admitted .NAME = true → Pattern.name (Text.onward x s t) = none := by
    intro name
    rw [Pattern.name_onward blank, Option.map_eq_none_iff]
    rw [classed, Option.or_eq_none_iff, Option.or_eq_none_iff, if_pos name,
      Option.map_eq_none_iff] at noClass
    exact noClass.1.1
  have none : classed admitted (Text.onward x s t) = .none := by
    refine classed_eq_none noName ?_ ?_
    · rw [behind]
      exact Pattern.quoted_eq_none double single
    · rw [behind]
      exact Pattern.numeral_eq_none digit minus
  rw [read?, none, spelled_onward blank, h]
  rfl

/-- the token at the front of a text is that of the text that goes on behind a blank -/
theorem read?_onward {kind : Terminal} {piece rest : Text}
    (h : read? admitted s = some (kind, piece, rest)) :
    read? admitted (Text.onward x s t) = some (kind, piece, Text.onward x rest t) := by
  obtain ⟨isToken, whole⟩ := matches_of_read? h
  rw [read?, Option.or_eq_some_iff] at h
  rcases h with h | ⟨noClass, h⟩
  · exact read?_onward_of_classed blank t isToken whole h
  · exact read?_onward_of_spelled blank t whole noClass h

omit blank in
/-- a text with a token at its front has quotes there only if they are closed -/
theorem quoted_or_not {y : CodePoint} (h : readAny? (y :: s) ≠ none) :
    (∃ p, Pattern.quoted (y :: s) = some p) ∨ y ≠ .scalar '"' ∧ y ≠ .scalar '\'' := by
  by_cases isQuote : y = .scalar '"' ∨ y = .scalar '\''
  · refine .inl (Option.ne_none_iff_exists'.mp fun none => h ?_)
    have start : y.isNameStart = false ∧ y.isDecimal = false ∧ y ≠ .scalar '-' := by
      rcases isQuote with rfl | rfl <;> decide
    have noClass : classed (fun _ => true) (y :: s) = .none :=
      classed_eq_none (fun _ => Pattern.name_eq_none start.1) none
        (Pattern.numeral_eq_none start.2.1 start.2.2)
    rw [readAny?, read?, noClass, Option.none_or, Option.eq_none_iff_forall_ne_some]
    rintro ⟨kind, piece, rest⟩ found
    obtain ⟨word, spelling, rfl⟩ := exists_spelling found
    obtain ⟨z, more, e, _, _, double, single, _⟩ := Terminal.spelling_first spelling
    have whole := (matches_of_read? (show read? (fun _ => true) (y :: s) = _ by
      rw [read?, noClass, Option.none_or, found])).2
    rw [e] at whole
    obtain rfl := (List.cons.inj whole).1
    exact isQuote.elim double single
  · exact .inr (not_or.mp isQuote)

/-- where there is a token, but none of the admitted classes, none of these comes up when the text
goes on -/
theorem read?_onward_eq_none {y : CodePoint} (none : read? admitted (y :: s) = none)
    (some : readAny? (y :: s) ≠ .none) : read? admitted (Text.onward x (y :: s) t) = .none := by
  rw [read?, Option.or_eq_none_iff] at none ⊢
  obtain ⟨noClass, noSpelling⟩ := none
  rw [classed, Option.or_eq_none_iff, Option.or_eq_none_iff] at noClass
  obtain ⟨⟨noName, noString⟩, noNumeral⟩ := noClass
  refine ⟨?_, by rw [spelled_onward blank, noSpelling]; rfl⟩
  rw [classed, Option.or_eq_none_iff, Option.or_eq_none_iff]
  refine ⟨⟨?_, ?_⟩, ?_⟩
  · by_cases name : admitted .NAME = true
    · rw [if_pos name, Option.map_eq_none_iff] at noName ⊢
      rw [Pattern.name_onward blank, noName]
      rfl
    · rw [if_neg name]
  · by_cases string : admitted .STRING = true
    · rw [if_pos string, Option.map_eq_none_iff] at noString ⊢
      rcases quoted_or_not some with ⟨p, found⟩ | ⟨double, single⟩
      · rw [noString] at found
        cases found
      · exact Pattern.quoted_eq_none double single
    · rw [if_neg string]
  · by_cases numeral : admitted .NUMERAL = true
    · rw [if_pos numeral, Option.map_eq_none_iff] at noNumeral ⊢
      exact Pattern.numeral_onward_eq_none blank s t noNumeral
    · rw [if_neg numeral]

end Token

/-! ## Ignored text -/

omit blank in
theorem Ignorable.onward {piece rest : Text} (h : Ignorable piece rest) (some : rest ≠ []) (t : Text) :
    Ignorable piece (Text.onward x rest t) := by
  cases h with
  | blank piece_some all whole =>
    refine .blank piece_some all ?_
    cases rest with
    | nil => exact absurd rfl some
    | cons y rest => exact whole
  | lineComment line whole =>
    refine .lineComment line (.inr ?_)
    obtain ⟨more, rfl⟩ := whole.resolve_left some
    exact ⟨_, rfl⟩
  | blockComment first => exact .blockComment first

omit blank in
theorem Gap.onward {gap rest : Text} (h : Gap gap rest) (some : rest ≠ []) (t : Text) :
    Gap gap (Text.onward x rest t) := by
  induction h with
  | nil => exact .nil _
  | @cons piece more rest here _ ih =>
    have inner := here.onward (x := x) (List.append_ne_nil_of_right_ne_nil more some) t
    rw [Text.append_onward] at inner
    exact .cons inner (ih some)

omit blank in
/-- the gap in front of a token is that of the text that goes on -/
theorem Pattern.gap_onward {s : Text} (t : Text) (some : (gap s).2 ≠ [])
    (ends : ignored (Text.onward x (gap s).2 t) = none) :
    gap (Text.onward x s t) = onward x t (gap s) := by
  have h := gap_of_isGap ((gap_isGap s).onward some t) ends
  rwa [← Text.append_onward, gap_append] at h

end Typings
