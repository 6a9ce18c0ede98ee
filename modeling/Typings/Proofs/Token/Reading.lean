import Typings.Proofs.Token.Matching
/-!
# What is written is read

The patterns take what a token or a gap looks like, if nothing behind it makes it longer.

* `Pattern.gap_of_isGap`          a gap in front of what is not ignored is taken as a whole;
* `Terminal.goesOn`               the code points that may make a token of a class longer;
* `Token.read?_of_matches`        a token of a class that may come is read.
-/

namespace Typings

/-! ## The fronts of texts -/

namespace Text
variable {p q : CodePoint → Bool}

theorem begins_cons {x : CodePoint} {t : Text} : Text.Begins p (x :: t) ↔ p x = true := by
  constructor
  · rintro ⟨y, hy, hp⟩
    cases hy
    exact hp
  · intro hp
    exact ⟨x, rfl, hp⟩

theorem not_begins_nil : ¬ Text.Begins p [] := by
  rintro ⟨_, hx, _⟩
  cases hx

theorem not_begins_cons {x : CodePoint} (h : p x = false) (t : Text) : ¬ Text.Begins p (x :: t) := by
  rw [begins_cons, h]
  exact Bool.false_ne_true

instance (t : Text) : Decidable (t.Begins p) :=
  match t with
  | [] => isFalse not_begins_nil
  | x :: _ => decidable_of_iff (p x = true) begins_cons.symm

theorem Begins.imp {t : Text} (sub : ∀ x, p x = true → q x = true) (h : t.Begins p) : t.Begins q := by
  obtain ⟨x, hx, hp⟩ := h
  exact ⟨x, hx, sub x hp⟩

end Text

/-! ## Names -/

theorem CodePoint.isNamePart_of_isNameStart {x : CodePoint} (h : x.isNameStart = true) :
    x.isNamePart = true := by
  cases x with
  | surrogate => cases h
  | scalar c =>
    simp only [isNameStart, isNamePart, satisfies_scalar, Char.isAlphanum, Bool.or_eq_true] at h ⊢
    exact h.imp_left fun h => h.imp_left .inl

theorem Text.isNamePart_of_isName {t : Text} (h : t.isName = true) : ∀ x ∈ t, x.isNamePart = true := by
  cases t with
  | nil => cases h
  | cons x t =>
    obtain ⟨start, parts⟩ := Bool.and_eq_true_iff.mp h
    exact List.forall_mem_cons.mpr
      ⟨CodePoint.isNamePart_of_isNameStart start, List.all_eq_true.mp parts⟩

namespace Pattern
variable {p : CodePoint → Bool}

theorem takeWhile_of_not_begins {t : Text} (h : ¬ t.Begins p) :
    t.takeWhile p = [] ∧ t.dropWhile p = t := by
  cases t with
  | nil => exact ⟨rfl, rfl⟩
  | cons x t =>
    have hx : p x = false := Bool.eq_false_iff.mpr fun e => h (Text.begins_cons.mpr e)
    rw [List.takeWhile_cons, List.dropWhile_cons, hx]
    exact ⟨rfl, rfl⟩

theorem takeWhile_append {piece rest : Text} (all : ∀ x ∈ piece, p x = true)
    (ends : ¬ rest.Begins p) :
    (piece ++ rest).takeWhile p = piece ∧ (piece ++ rest).dropWhile p = rest := by
  obtain ⟨take, drop⟩ := takeWhile_of_not_begins ends
  rw [List.takeWhile_append_of_pos all, List.dropWhile_append_of_pos all, take, drop,
    List.append_nil]
  exact ⟨rfl, rfl⟩

theorem many1_append {piece rest : Text} (some : piece ≠ []) (all : ∀ x ∈ piece, p x = true)
    (ends : ¬ rest.Begins p) : many1 p (piece ++ rest) = .some (piece, rest) := by
  obtain ⟨take, drop⟩ := takeWhile_append all ends
  obtain ⟨x, more, rfl⟩ := List.exists_cons_of_ne_nil some
  rw [many1, take, drop]

theorem many1_of_not_begins {t : Text} (h : ¬ t.Begins p) : many1 p t = none := by
  rw [many1, (takeWhile_of_not_begins h).1]

/-! ## Ignored text -/

theorem lineComment_append {body rest : Text} (line : ∀ x ∈ body, x ≠ '\n')
    (whole : rest = [] ∨ ∃ more, rest = .scalar '\n' :: more) :
    lineComment (.scalar '/' :: .scalar '/' :: (body ++ rest)) =
      some (.scalar '/' :: .scalar '/' :: body, rest) := by
  have ends : ¬ rest.Begins fun x => decide (x ≠ .scalar '\n') := by
    rcases whole with rfl | ⟨more, rfl⟩
    · exact Text.not_begins_nil
    · rw [Text.begins_cons]
      decide
  obtain ⟨take, drop⟩ := takeWhile_append (fun x hx => decide_eq_true (line x hx)) ends
  rw [lineComment, take, drop]

theorem untilStarSlash_append {body : Text} (rest : Text)
    (first : ∀ s t : Text, body ++ [.scalar '*', .scalar '/'] = s ++ .scalar '*' :: .scalar '/' :: t →
      t = []) :
    untilStarSlash (body ++ .scalar '*' :: .scalar '/' :: rest) =
      some (body ++ [.scalar '*', .scalar '/'], rest) := by
  induction body with
  | nil => rfl
  | cons x body ih =>
    have later := ih fun s t e => first (x :: s) t (by rw [List.cons_append, e, List.cons_append])
    rw [List.cons_append, untilStarSlash.eq_def]
    split
    · rename_i e
      cases e
    · -- the comment would end before its end
      rename_i t e
      obtain ⟨star, behind⟩ := List.cons.inj e
      cases body with
      | nil => cases behind
      | cons y body =>
        rw [star, (List.cons.inj behind).1] at first
        exact absurd (first [] _ rfl) (List.append_ne_nil_of_right_ne_nil _ (List.cons_ne_nil _ _))
    · rename_i e
      cases e
      rw [later]
      rfl

theorem blank_of_slash (t : Text) : blank (.scalar '/' :: t) = none :=
  many1_of_not_begins (by rw [Text.begins_cons]; decide)

theorem ignored_of_ignorable {piece rest : Text} (h : Ignorable piece rest) :
    ignored (piece ++ rest) = some (piece, rest) := by
  cases h with
  | blank some all whole => rw [ignored, blank, many1_append some all whole]; rfl
  | lineComment line whole =>
    rw [ignored, List.cons_append, List.cons_append, blank_of_slash, lineComment_append line whole]
    rfl
  | blockComment first =>
    have inner := untilStarSlash_append rest first
    rw [ignored, List.cons_append, List.cons_append, blank_of_slash, List.append_assoc]
    show (none.or none).or ((untilStarSlash _).map _) = _
    rw [List.cons_append, List.cons_append, List.nil_append, inner]
    rfl

/-- a text is not ignored that begins with no blank and no slash -/
theorem ignored_eq_none {x : CodePoint} {t : Text} (blank : x.isBlank = false) (slash : x ≠ '/') :
    ignored (x :: t) = none := by
  have noBlank : Pattern.blank (x :: t) = none :=
    many1_of_not_begins (by rw [Text.begins_cons, blank]; exact Bool.false_ne_true)
  have noLine : lineComment (x :: t) = none := by
    rw [lineComment.eq_def]
    split
    · rename_i e
      exact absurd (List.cons.inj e).1 slash
    · rfl
  have noBlock : blockComment (x :: t) = none := by
    rw [blockComment.eq_def]
    split
    · rename_i e
      exact absurd (List.cons.inj e).1 slash
    · rfl
  rw [ignored, noBlank, noLine, noBlock]
  rfl

theorem gapWithin_of_isGap {gap rest : Text} (h : Gap gap rest) (ends : ignored rest = none)
    {fuel : Text} (enough : (gap ++ rest).length ≤ fuel.length) :
    gapWithin fuel (gap ++ rest) = (gap, rest) := by
  induction h generalizing fuel with
  | nil rest =>
    cases fuel with
    | nil => rfl
    | cons _ fuel => rw [List.nil_append, gapWithin, ends]
  | @cons piece more rest here _ ih =>
    have taken := ignored_of_ignorable here
    have shorter := length_lt_of_ignored taken
    cases fuel with
    | nil =>
      rw [List.append_assoc] at enough
      exact absurd (Nat.lt_of_lt_of_le shorter enough) (Nat.not_lt_zero _)
    | cons _ fuel =>
      rw [List.append_assoc] at enough ⊢
      rw [gapWithin, taken]
      simp only [ih ends (Nat.le_of_lt_succ (Nat.lt_of_lt_of_le shorter enough))]

/-- a gap in front of what is not ignored is taken as a whole -/
theorem gap_of_isGap {gap rest : Text} (h : Gap gap rest) (ends : ignored rest = none) :
    Pattern.gap (gap ++ rest) = (gap, rest) :=
  gapWithin_of_isGap h ends (Nat.le_refl _)

/-! ## Classes of many texts -/

theorem name_append {piece rest : Text} (isName : piece.isName = true)
    (whole : ¬ rest.Begins CodePoint.isNamePart) : name (piece ++ rest) = some (piece, rest) := by
  cases piece with
  | nil => cases isName
  | cons x piece =>
    rw [Text.isName, Bool.and_eq_true, List.all_eq_true] at isName
    obtain ⟨take, drop⟩ := takeWhile_append isName.2 whole
    rw [List.cons_append, name, if_pos isName.1, take, drop]

theorem name_eq_none {x : CodePoint} {t : Text} (h : x.isNameStart = false) : name (x :: t) = none := by
  rw [name, h]
  rfl

theorem untilQuote_append {quote : Char} {body : Text} (rest : Text) (plain : quote ≠ '\\')
    (h : QuotedBody quote body) :
    untilQuote quote (body ++ .scalar quote :: rest) = some (body ++ [.scalar quote], rest) := by
  induction h with
  | nil =>
    rw [List.nil_append, untilQuote.eq_def]
    split
    · rename_i e
      cases e
    · rename_i e
      exact absurd (CodePoint.scalar.inj (List.cons.inj e).1) plain
    · rename_i e
      cases e
      rw [if_pos rfl]
      rfl
  | @plain x body quote_ne line plain' _ ih =>
    rw [List.cons_append, untilQuote.eq_def]
    split
    · rename_i e
      cases e
    · rename_i e
      exact absurd (List.cons.inj e).1 plain'
    · rename_i e
      cases e
      rw [if_neg quote_ne, if_neg (not_or.mpr ⟨line, plain'⟩), ih]
      rfl
  | @escaped y body line _ ih =>
    rw [List.cons_append, List.cons_append, untilQuote, if_neg line, ih]
    rfl

theorem quoted_append {quote : Char} {body : Text} (rest : Text) (isQuote : quote = '"' ∨ quote = '\'')
    (h : QuotedBody quote body) :
    quoted (.scalar quote :: (body ++ .scalar quote :: rest)) =
      some (.scalar quote :: (body ++ [.scalar quote]), rest) := by
  rcases isQuote with rfl | rfl
  · rw [quoted, untilQuote_append rest (by decide) h]
    rfl
  · rw [quoted, untilQuote_append rest (by decide) h]
    rfl

theorem quoted_eq_none {x : CodePoint} {t : Text} (double : x ≠ '"') (single : x ≠ '\'') :
    quoted (x :: t) = none := by
  rw [quoted.eq_def]
  split
  · rename_i e
    exact absurd (List.cons.inj e).1 double
  · rename_i e
    exact absurd (List.cons.inj e).1 single
  · rfl

theorem decimals_append {piece rest : Text} (h : Decimals piece rest) :
    decimals (piece ++ rest) = some (piece, rest) := by
  cases h with
  | whole some all longest point =>
    rw [decimals, many1_append some all longest, Option.map_some]
    simp only
    split
    · rw [many1_of_not_begins (point _ rfl)]
    · rfl
  | @fraction digits more _ some all someMore allMore longest =>
    have point : ¬ Text.Begins CodePoint.isDecimal (.scalar '.' :: (more ++ rest)) := by
      rw [Text.begins_cons]
      decide
    rw [List.append_assoc, List.cons_append, decimals, many1_append some all point, Option.map_some]
    simp only [many1_append someMore allMore longest]

theorem hexadecimal_append {x : Char} {digits rest : Text} (isX : x = 'x' ∨ x = 'X')
    (some : digits ≠ []) (all : ∀ y ∈ digits, y.isHexDigit = true)
    (whole : ¬ rest.Begins CodePoint.isHexDigit) :
    hexadecimal (.scalar '0' :: .scalar x :: (digits ++ rest)) =
      .some (.scalar '0' :: .scalar x :: digits, rest) := by
  rcases isX with rfl | rfl
  · rw [hexadecimal, many1_append some all whole]
    rfl
  · rw [hexadecimal, many1_append some all whole]
    rfl

theorem hexadecimal_eq_none {t : Text} (h : ∀ (x : Char) (more : Text), x = 'x' ∨ x = 'X' →
    t = .scalar '0' :: .scalar x :: more → ¬ more.Begins CodePoint.isHexDigit) :
    hexadecimal t = none := by
  rw [hexadecimal.eq_def]
  split
  · rename_i more
    rw [many1_of_not_begins (h 'x' more (.inl rfl) rfl)]
    rfl
  · rename_i more
    rw [many1_of_not_begins (h 'X' more (.inr rfl) rfl)]
    rfl
  · rfl

end Pattern

/-! ## First code points -/

namespace CodePoint

/-- the digits of all scripts but the first stand behind the first 1632 code points -/
theorem isDecimal_range {x : CodePoint} (h : x.isDecimal = true) :
    0x30 ≤ x.toNat ∧ x.toNat ≤ 0x39 ∨ 0x660 ≤ x.toNat := by
  have far : ∀ z ∈ DecimalDigit.zeros, z = 0x30 ∨ 0x660 ≤ z := by decide
  obtain ⟨z, hz, inside⟩ := List.any_eq_true.mp h
  rw [Bool.and_eq_true, decide_eq_true_iff, decide_eq_true_iff] at inside
  rcases far z hz with rfl | hz
  · left
    omega
  · right
    omega

theorem isAlpha_iff (c : Char) : c.isAlpha = true ↔
    (0x41 ≤ c.toNat ∧ c.toNat ≤ 0x5A) ∨ 0x61 ≤ c.toNat ∧ c.toNat ≤ 0x7A := by
  show (c.isUpper || c.isLower) = true ↔ _
  rw [Bool.or_eq_true]
  exact or_congr decide_eq_true_iff
    (Bool.and_eq_true_iff.trans (and_congr decide_eq_true_iff decide_eq_true_iff))

theorem isNameStart_range {x : CodePoint} (h : x.isNameStart = true) :
    x.toNat = 0x24 ∨ 0x41 ≤ x.toNat ∧ x.toNat ≤ 0x7A := by
  cases x with
  | surrogate n => cases h
  | scalar c =>
    simp only [isNameStart, satisfies_scalar, Bool.or_eq_true, isAlpha_iff, beq_iff_eq] at h
    show c.toNat = _ ∨ _ ≤ c.toNat ∧ c.toNat ≤ _
    rcases h with ((upper | lower) | rfl) | rfl
    · omega
    · omega
    · decide
    · decide

theorem isBlank_le {x : CodePoint} (h : x.isBlank = true) : x.toNat ≤ 0x20 := by
  cases x with
  | surrogate n => cases h
  | scalar c =>
    simp only [isBlank, satisfies_scalar, Bool.or_eq_true, beq_iff_eq] at h
    rcases h with (((rfl | rfl) | rfl) | rfl) | rfl <;> decide

/-- no decimal digit begins a name, and none is any other code point below the second digits -/
theorem isDecimal_ne {x : CodePoint} {c : Char} (h : x.isDecimal = true)
    (far : c.toNat < 0x30 ∨ 0x39 < c.toNat ∧ c.toNat < 0x660) : x ≠ c := by
  rintro rfl
  have range := isDecimal_range h
  have same : (scalar c).toNat = c.toNat := rfl
  omega

theorem isNameStart_of_isDecimal {x : CodePoint} (h : x.isDecimal = true) : x.isNameStart = false := by
  refine Bool.eq_false_iff.mpr fun start => ?_
  have here := isDecimal_range h
  have there := isNameStart_range start
  omega

end CodePoint

/-! ## Tokens -/

theorem Decimals.first {piece rest : Text} (h : Decimals piece rest) :
    ∃ x more, piece = x :: more ∧ x.isDecimal = true := by
  have front : ∀ {digits : Text}, digits ≠ [] → (∀ x ∈ digits, x.isDecimal = true) →
      ∃ x more, digits = x :: more ∧ x.isDecimal = true := by
    intro digits some all
    obtain ⟨x, more, rfl⟩ := List.exists_cons_of_ne_nil some
    exact ⟨x, more, rfl, all x List.mem_cons_self⟩
  cases h with
  | whole some all => exact front some all
  | fraction some all =>
    obtain ⟨x, more, rfl, isDecimal⟩ := front some all
    exact ⟨x, _, rfl, isDecimal⟩

theorem Decimals.second {x y : CodePoint} {more rest : Text} (h : Decimals (x :: y :: more) rest) :
    y.isDecimal = true ∨ y = '.' := by
  generalize e : x :: y :: more = piece at h
  cases h with
  | whole some all =>
    subst e
    exact .inl (all y (List.mem_cons_of_mem _ List.mem_cons_self))
  | @fraction digits more _ some all =>
    cases digits with
    | nil => exact absurd rfl some
    | cons z digits =>
      have inner := (List.cons.inj e).2
      cases digits with
      | nil => exact .inr (List.cons.inj inner).1
      | cons w digits =>
        rw [(List.cons.inj inner).1]
        exact .inl (all w (List.mem_cons_of_mem _ List.mem_cons_self))

/-- decimal digits do not go on like a hexadecimal number -/
theorem Decimals.ne_hexadecimal {piece rest more : Text} (h : Decimals piece rest) {x : Char}
    (isX : x = 'x' ∨ x = 'X') : piece ≠ .scalar '0' :: .scalar x :: more := by
  rintro rfl
  rcases h.second with digit | point
  · rcases isX with rfl | rfl <;> exact absurd digit (by decide)
  · rcases isX with rfl | rfl <;> exact absurd point (by decide)

namespace Pattern

/-- a text is no numeral that begins with no digit and no minus sign -/
theorem numeral_eq_none {x : CodePoint} {t : Text} (digit : x.isDecimal = false) (minus : x ≠ '-') :
    numeral (x :: t) = none := by
  have noHex : hexadecimal (x :: t) = none := by
    refine hexadecimal_eq_none fun y more _ e => ?_
    rw [(List.cons.inj e).1] at digit
    exact absurd digit (by decide)
  have noSigned : signed (x :: t) = none := by
    rw [signed.eq_def]
    split
    · rename_i e
      exact absurd (List.cons.inj e).1 minus
    · rw [decimals, many1_of_not_begins (by rw [Text.begins_cons, digit]; exact Bool.false_ne_true)]
      rfl
  rw [numeral, noHex, noSigned]
  rfl

theorem numeral_append {piece rest : Text} (h : Terminal.Matches .NUMERAL piece rest) :
    numeral (piece ++ rest) = some (piece, rest) := by
  cases h with
  | hexadecimal isX some all whole =>
    rw [numeral, List.cons_append, List.cons_append, hexadecimal_append isX some all whole]
    rfl
  | decimal isDecimal notHex =>
    obtain ⟨x, more, rfl, digit⟩ := isDecimal.first
    have minus : x ≠ '-' := CodePoint.isDecimal_ne digit (by decide)
    rw [numeral, hexadecimal_eq_none notHex, signed.eq_def]
    split
    · rename_i e
      exact absurd (List.cons.inj e).1 minus
    · rw [decimals_append isDecimal]
      rfl
  | @negative digits _ isDecimal =>
    have noHex : hexadecimal (.scalar '-' :: digits ++ rest) = none :=
      hexadecimal_eq_none fun x more _ e => absurd (List.cons.inj e).1 (by decide)
    rw [numeral, noHex, List.cons_append, signed, decimals_append isDecimal]
    rfl
  | spelled spelling => cases spelling

theorem after?_eq_none {front t rest : Text} (ne : after? front t = none)
    (ends : ∀ x more, after? t front = some (x :: more) → rest.head? ≠ some x) :
    after? front (t ++ rest) = none := by
  induction t generalizing front with
  | nil =>
    cases front with
    | nil => cases ne
    | cons x front =>
      cases rest with
      | nil => rfl
      | cons y rest =>
        rw [List.nil_append, after?, if_neg]
        rintro rfl
        exact ends x front rfl rfl
  | cons y t ih =>
    cases front with
    | nil => cases ne
    | cons x front =>
      rw [List.cons_append, after?]
      split
      · rename_i e
        rw [after?, if_pos e] at ne
        refine ih ne fun z more found => ends z more ?_
        rw [after?, if_pos e.symm, found]
      · rfl

end Pattern

namespace Terminal

/-- the code points that may make a token of a class longer -/
def goesOn (t : Terminal) (x : CodePoint) : Bool :=
  match t with
  | .NAME => x.isNamePart
  | .NUMERAL => x.isNamePart || x.isDecimal || x == .scalar '.'
  | .DOT => x == .scalar '.'
  | .EQUAL => x == .scalar '>'
  | _ => t.isKeyword && x.isNamePart

/-- the first code point of a keyword or a punctuation mark -/
theorem spelling_first {t : Terminal} {s : String} (h : t.spelling? = some s) :
    ∃ x more, Text.ofString s = x :: more ∧ x.isBlank = false ∧ x ≠ '/' ∧ x ≠ '"' ∧ x ≠ '\'' ∧
      x.isDecimal = false ∧ x ≠ '-' ∧ x.isNameStart = t.isKeyword := by
  cases t <;> cases h <;> exact ⟨_, _, rfl, by decide⟩

/-- keywords are names -/
theorem isName_of_isKeyword {t : Terminal} {s : String} (h : t.spelling? = some s)
    (word : t.isKeyword = true) : (Text.ofString s).isName = true := by
  have all : ∀ t ∈ Terminal.all, t.isKeyword = true → ∀ s ∈ t.spelling?, (Text.ofString s).isName = true := by
    decide
  exact all t t.mem_all word s h

/-- a token begins with no blank and no slash -/
theorem Matches.first {t : Terminal} {piece rest : Text} (h : t.Matches piece rest) :
    ∃ x more, piece = x :: more ∧ x.isBlank = false ∧ x ≠ '/' := by
  cases h with
  | @name piece _ isName =>
    cases piece with
    | nil => cases isName
    | cons x more =>
      rw [Text.isName, Bool.and_eq_true] at isName
      have range := CodePoint.isNameStart_range isName.1
      refine ⟨x, more, rfl, Bool.eq_false_iff.mpr fun blank => ?_, ?_⟩
      · have := CodePoint.isBlank_le blank
        omega
      · rintro rfl
        exact absurd isName.1 (by decide)
  | string isQuote =>
    rcases isQuote with rfl | rfl
    · exact ⟨_, _, rfl, by decide, by decide⟩
    · exact ⟨_, _, rfl, by decide, by decide⟩
  | hexadecimal => exact ⟨_, _, rfl, by decide, by decide⟩
  | decimal isDecimal =>
    obtain ⟨x, more, rfl, digit⟩ := isDecimal.first
    have range := CodePoint.isDecimal_range digit
    refine ⟨x, more, rfl, Bool.eq_false_iff.mpr fun blank => ?_, CodePoint.isDecimal_ne digit (by decide)⟩
    have := CodePoint.isBlank_le blank
    omega
  | negative => exact ⟨_, _, rfl, by decide, by decide⟩
  | spelled spelling =>
    obtain ⟨x, more, e, blank, slash, _⟩ := spelling_first spelling
    exact ⟨x, more, e, blank, slash⟩

/-- a token is not ignored -/
theorem Matches.ignored {t : Terminal} {piece rest : Text} (h : t.Matches piece rest) :
    Pattern.ignored (piece ++ rest) = none := by
  obtain ⟨x, more, rfl, blank, slash⟩ := h.first
  exact Pattern.ignored_eq_none blank slash

theorem isNamePart_of_isHexDigit {x : CodePoint} (h : x.isHexDigit = true) : x.isNamePart = true := by
  cases x with
  | surrogate n => cases h
  | scalar c =>
    simp only [CodePoint.isHexDigit, CodePoint.isNamePart, CodePoint.satisfies_scalar, Char.isAlphanum,
      CodePoint.isAlpha_iff, Bool.or_eq_true, Bool.and_eq_true, decide_eq_true_iff, UInt32.le_iff_toNat_le,
      Char.le_def] at h ⊢
    change ((_ ∨ 0x61 ≤ c.toNat ∧ c.toNat ≤ 0x66) ∨ 0x41 ≤ c.toNat ∧ c.toNat ≤ 0x46) at h
    rcases h with (digit | lower) | upper
    · exact .inl (.inl (.inr digit))
    · omega
    · omega

/-- a lexeme by itself is a token in front of all that does not make it longer -/
theorem Matches.before {t : Terminal} {piece rest : Text} (h : t.Matches piece [])
    (ends : ¬ rest.Begins t.goesOn) : t.Matches piece rest := by
  have decimals : t = .NUMERAL → ∀ {piece : Text}, Decimals piece [] → Decimals piece rest := by
    rintro rfl piece h
    have longest : ¬ rest.Begins CodePoint.isDecimal := fun e =>
      ends (e.imp fun x hx => by simp [goesOn, hx])
    generalize e : ([] : Text) = behind at h
    cases h with
    | whole some all =>
      refine .whole some all longest fun more e _ => ends ?_
      rw [e, Text.begins_cons]
      rfl
    | fraction some all someMore allMore => exact .fraction some all someMore allMore longest
  cases h with
  | name isName => exact .name isName ends
  | string isQuote quoted => exact .string isQuote quoted
  | hexadecimal isX some all =>
    refine .hexadecimal isX some all fun e => ends (e.imp fun x hx => ?_)
    simp [goesOn, isNamePart_of_isHexDigit hx]
  | decimal isDecimal =>
    refine .decimal (decimals rfl isDecimal) fun x more isX e _ => ?_
    obtain ⟨y, front, rfl, _⟩ := isDecimal.first
    cases front with
    | nil =>
      -- the `x` would stand behind the lexeme
      rw [List.singleton_append] at e
      refine ends ?_
      rw [(List.cons.inj e).2, Text.begins_cons]
      rcases isX with rfl | rfl <;> decide
    | cons z front =>
      obtain ⟨rfl, tail⟩ := List.cons.inj e
      obtain ⟨rfl, -⟩ := List.cons.inj tail
      exact absurd rfl (isDecimal.ne_hexadecimal isX)
  | negative isDecimal => exact .negative (decimals rfl isDecimal)
  | spelled spelling => exact .spelled spelling

/-- a token is a lexeme by itself -/
theorem Matches.alone {t : Terminal} {piece rest : Text} (h : t.Matches piece rest) : t.Matches piece [] := by
  have decimals : ∀ {piece : Text}, Decimals piece rest → Decimals piece [] := by
    intro piece h
    cases h with
    | whole some all => exact .whole some all Text.not_begins_nil nofun
    | fraction some all someMore allMore => exact .fraction some all someMore allMore Text.not_begins_nil
  cases h with
  | name isName => exact .name isName Text.not_begins_nil
  | string isQuote quoted => exact .string isQuote quoted
  | hexadecimal isX some all => exact .hexadecimal isX some all Text.not_begins_nil
  | decimal isDecimal =>
    refine .decimal (decimals isDecimal) fun x more isX e => ?_
    rw [List.append_nil] at e
    exact absurd e (isDecimal.ne_hexadecimal isX)
  | negative isDecimal => exact .negative (decimals isDecimal)
  | spelled spelling => exact .spelled spelling

/-- a spelling is that of one class only -/
theorem spelling_injective : ∀ t ∈ all, ∀ s ∈ t.spelling?, ∀ u ∈ all, ∀ s' ∈ u.spelling?,
    Text.ofString s' = Text.ofString s → u = t := by
  decide

/-- a text that is not the spelling of a keyword -/
theorem isWord_eq_false {t : Terminal} {s : String} (h : t.spelling? = some s) {word : Text}
    (other : word ≠ s) : t.isWord word = false := by
  rw [isWord, h, Option.map_some, Bool.and_eq_false_iff]
  exact .inr (beq_false_of_ne fun e => other (Option.some.inj e).symm)

/-- a word for a keyword is its spelling -/
theorem spelling_of_isWord {t : Terminal} {word : Text} (h : t.isWord word = true) :
    ∃ s, t.spelling? = some s ∧ Text.ofString s = word := by
  rw [isWord, Bool.and_eq_true, beq_iff_eq, Option.map_eq_some_iff] at h
  exact h.2

theorem eq_of_isWord {t u : Terminal} {s : String} (h : t.spelling? = some s)
    (word : u.isWord s = true) : u = t := by
  obtain ⟨s', h', same⟩ := spelling_of_isWord word
  exact spelling_injective t t.mem_all s h u u.mem_all s' h' same

theorem ofWord_of_isWord {admitted : Terminal → Bool} {t : Terminal} {s : String}
    (h : t.spelling? = some s) (word : t.isKeyword = true) (isAdmitted : admitted t = true) :
    ofWord admitted s = t := by
  rw [ofWord]
  cases found : all.find? fun u => admitted u && u.isWord s with
  | none =>
    have none := List.find?_eq_none.mp found t t.mem_all
    rw [isWord, isAdmitted, word, h] at none
    exact absurd (by simp) none
  | some u =>
    have isWord := List.find?_some found
    rw [Bool.and_eq_true] at isWord
    exact eq_of_isWord h isWord.2

theorem ofWord_eq_name {admitted : Terminal → Bool} {word : Text}
    (h : ∀ u, admitted u = true → u.isWord word = false) : ofWord admitted word = .NAME := by
  rw [ofWord]
  have none : (all.find? fun u => admitted u && u.isWord word) = none := by
    refine List.find?_eq_none.mpr fun u _ => ?_
    rw [Bool.not_eq_true, Bool.and_eq_false_iff]
    cases hu : admitted u with
    | false => exact .inl rfl
    | true => exact .inr (h u hu)
  rw [none]
  rfl

/-- a word that is a name is none of the keywords that may come -/
theorem not_isWord_of_ofWord {admitted : Terminal → Bool} {word : Text}
    (h : ofWord admitted word = .NAME) {u : Terminal} (isAdmitted : admitted u = true) :
    u.isWord word = false := by
  rw [ofWord] at h
  cases found : all.find? fun t => admitted t && t.isWord word with
  | none =>
    have none := List.find?_eq_none.mp found u u.mem_all
    rwa [isAdmitted, Bool.true_and, Bool.not_eq_true] at none
  | some t =>
    -- the class of a name is no keyword
    rw [found] at h
    obtain rfl : t = .NAME := h
    have word := List.find?_some found
    rw [Bool.and_eq_true] at word
    cases word.2

theorem mem_spelled : ∀ t ∈ all, t.spelling? ≠ none → t ∈ spelled := by decide

/-- what stands before a spelling in the list is not taken in its place -/
theorem spelled_order : ∀ t ∈ spelled, ∀ s ∈ t.spelling?, ∀ u ∈ spelled.takeWhile (· != t),
    ∀ s' ∈ u.spelling?, Pattern.after? s' s = none ∧
      ∀ more ∈ Pattern.after? s s', ∀ x ∈ more.head?, t.goesOn x = true := by
  decide

end Terminal

namespace Token
variable {admitted : Terminal → Bool} {kind : Terminal} {piece rest : Text}

/-- no piece of a class of many texts is taken off a text that begins as none of them does -/
theorem classed_eq_none {t : Text} (noName : admitted .NAME = true → Pattern.name t = none)
    (noQuote : Pattern.quoted t = none) (noNumeral : Pattern.numeral t = none) :
    classed admitted t = none := by
  rw [classed, noQuote, noNumeral]
  cases hn : admitted .NAME with
  | false => simp
  | true => simp [noName hn]

/-- a list up to the first place of an element -/
theorem exists_takeWhile_ne {ts : List Terminal} (mem : kind ∈ ts) :
    ∃ later, ts = ts.takeWhile (· != kind) ++ kind :: later := by
  induction ts with
  | nil => cases mem
  | cons t ts ih =>
    by_cases e : t = kind
    · refine ⟨ts, ?_⟩
      rw [e, List.takeWhile_cons_of_neg (by simp)]
      rfl
    · obtain ⟨later, h⟩ := ih ((List.mem_cons.mp mem).resolve_left (Ne.symm e))
      refine ⟨later, ?_⟩
      rw [List.takeWhile_cons_of_pos (by simpa using e), List.cons_append, ← h]

/-- a keyword or punctuation mark is taken where no name may come in its place -/
theorem spelled_append {s : String} (spelling : kind.spelling? = some s)
    (isAdmitted : admitted kind = true) (noName : kind.isKeyword = true → admitted .NAME = false)
    (ends : ¬ rest.Begins kind.goesOn) :
    spelled admitted (s ++ rest) = some (kind, Text.ofString s, rest) := by
  have mem : kind ∈ Terminal.spelled :=
    Terminal.mem_spelled kind kind.mem_all (by rw [spelling]; exact Option.some_ne_none _)
  have order := Terminal.spelled_order kind mem s spelling
  obtain ⟨later, split⟩ := exists_takeWhile_ne mem
  refine List.findSome?_eq_some_iff.mpr ⟨_, kind, later, split, ?_, fun u hu => ?_⟩
  · have open' : (admitted kind && !(kind.isKeyword && admitted .NAME)) = true := by
      rw [isAdmitted, Bool.true_and, Bool.not_eq_true', Bool.and_eq_false_iff]
      cases word : kind.isKeyword with
      | false => exact .inl rfl
      | true => exact .inr (noName word)
    rw [if_pos open', spelling, Option.bind_some, Pattern.exactly, Pattern.after?_append]
    rfl
  · split
    · cases hs : u.spelling? with
      | none => rfl
      | some s' =>
        obtain ⟨ne, beyond⟩ := order u hu s' hs
        have none : Pattern.after? s' (s ++ rest) = none :=
          Pattern.after?_eq_none ne fun x more found isHead =>
            ends ⟨x, isHead, beyond _ found x rfl⟩
        rw [Option.bind_some, Pattern.exactly, none]
        rfl
    · rfl

theorem read?_spelled {s : String} (spelling : kind.spelling? = some s)
    (isAdmitted : admitted kind = true) (ends : ¬ rest.Begins kind.goesOn) :
    read? admitted (s ++ rest) = some (kind, Text.ofString s, rest) := by
  obtain ⟨x, more, e, _, _, double, single, digit, minus, start⟩ := Terminal.spelling_first spelling
  have noQuote : Pattern.quoted (s ++ rest) = none := by
    rw [e]
    exact Pattern.quoted_eq_none double single
  have noNumeral : Pattern.numeral (s ++ rest) = none := by
    rw [e]
    exact Pattern.numeral_eq_none digit minus
  by_cases word : kind.isKeyword = true ∧ admitted .NAME = true
  · have whole : ¬ rest.Begins CodePoint.isNamePart := by
      refine fun h => ends (h.imp fun y hy => ?_)
      cases kind <;> first | exact hy | cases word.1
    rw [read?, classed, if_pos word.2,
      Pattern.name_append (Terminal.isName_of_isKeyword spelling word.1) whole, Option.map_some,
      Terminal.ofWord_of_isWord spelling word.1 isAdmitted]
    rfl
  · have noName : admitted .NAME = true → Pattern.name (s ++ rest) = none := by
      intro name
      rw [e]
      refine Pattern.name_eq_none ?_
      rw [start]
      exact Bool.eq_false_iff.mpr fun h => word ⟨h, name⟩
    rw [read?, classed_eq_none noName noQuote noNumeral]
    exact spelled_append spelling isAdmitted (fun h => Bool.eq_false_iff.mpr fun name => word ⟨h, name⟩)
      ends

theorem read?_numeral (h : Terminal.Matches .NUMERAL piece rest)
    (isAdmitted : admitted .NUMERAL = true) :
    read? admitted (piece ++ rest) = some (.NUMERAL, piece, rest) := by
  obtain ⟨x, more, e, start, double, single⟩ : ∃ x more, piece = x :: more ∧
      x.isNameStart = false ∧ x ≠ '"' ∧ x ≠ '\'' := by
    cases h with
    | hexadecimal => exact ⟨_, _, rfl, by decide⟩
    | decimal isDecimal =>
      obtain ⟨x, more, e, digit⟩ := isDecimal.first
      exact ⟨x, more, e, CodePoint.isNameStart_of_isDecimal digit,
        CodePoint.isDecimal_ne digit (by decide), CodePoint.isDecimal_ne digit (by decide)⟩
    | negative => exact ⟨_, _, rfl, by decide⟩
    | spelled spelling => cases spelling
  have found := Pattern.numeral_append h
  rw [e, List.cons_append] at found
  rw [read?, classed, e, List.cons_append, Pattern.name_eq_none start,
    Pattern.quoted_eq_none double single, found, if_pos isAdmitted]
  simp

/-- a spelled token has the spelling of its class -/
theorem exists_spelling {t : Text} (h : spelled admitted t = some (kind, piece, rest)) :
    ∃ word : String, kind.spelling? = some word ∧ piece = word := by
  obtain ⟨k, _, h⟩ := List.exists_of_findSome?_eq_some h
  split at h
  · obtain ⟨word, spelling, h⟩ := Option.bind_eq_some_iff.mp h
    obtain ⟨p, found, e⟩ := Option.map_eq_some_iff.mp h
    obtain ⟨_, _, rfl⟩ := Option.map_eq_some_iff.mp found
    cases e
    exact ⟨word, spelling, rfl⟩
  · cases h

/-- a name that is read is no keyword that may come in its place -/
theorem not_isWord_of_read? {t : Text} (h : read? admitted t = some (.NAME, piece, rest)) (u : Terminal)
    (isAdmitted : admitted u = true) : u.isWord piece = false := by
  rw [read?, Option.or_eq_some_iff] at h
  rcases h with h | ⟨_, h⟩
  · rw [classed] at h
    simp only [Option.or_eq_some_iff] at h
    rcases h with (h | ⟨_, h⟩) | ⟨_, h⟩
    · split at h
      · obtain ⟨p, _, e⟩ := Option.map_eq_some_iff.mp h
        obtain ⟨isName, rfl⟩ := Prod.mk.inj e
        exact Terminal.not_isWord_of_ofWord isName isAdmitted
      · cases h
    · split at h
      · obtain ⟨p, _, e⟩ := Option.map_eq_some_iff.mp h
        cases e
      · cases h
    · split at h
      · obtain ⟨p, _, e⟩ := Option.map_eq_some_iff.mp h
        cases e
      · cases h
  · obtain ⟨_, spelling, _⟩ := exists_spelling h
    cases spelling

/-- a token of a class that may come is read, if it is not a keyword that may come in its place
and nothing behind it makes it longer -/
theorem read?_of_matches (h : kind.Matches piece rest) (isAdmitted : admitted kind = true)
    (noWord : kind = .NAME → ∀ u, admitted u = true → u.isWord piece = false)
    (ends : ¬ rest.Begins kind.goesOn) :
    read? admitted (piece ++ rest) = some (kind, piece, rest) := by
  cases h with
  | name isName whole =>
    rw [read?, classed, if_pos isAdmitted, Pattern.name_append isName whole, Option.map_some,
      Terminal.ofWord_eq_name (noWord rfl)]
    rfl
  | @string quote body _ isQuote quoted =>
    have start : (CodePoint.scalar quote).isNameStart = false := by
      rcases isQuote with rfl | rfl <;> decide
    rw [List.cons_append, List.append_assoc, read?, classed, Pattern.name_eq_none start,
      List.singleton_append, Pattern.quoted_append rest isQuote quoted, if_pos isAdmitted]
    simp
  | hexadecimal isX some all whole => exact read?_numeral (.hexadecimal isX some all whole) isAdmitted
  | decimal isDecimal notHex => exact read?_numeral (.decimal isDecimal notHex) isAdmitted
  | negative isDecimal => exact read?_numeral (.negative isDecimal) isAdmitted
  | spelled spelling => exact read?_spelled spelling isAdmitted ends

end Token

end Typings
