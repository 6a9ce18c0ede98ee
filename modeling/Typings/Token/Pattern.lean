import Typings.Text.CodePoint
import Typings.Text.DecimalDigit
/-!
# Patterns of tokens and ignored text

Each pattern looks at the front of a text and gives the piece it takes and the rest behind it.

* `Pattern.name`, `Pattern.quoted`, `Pattern.numeral`       the classes of many texts;
* `Pattern.exactly`                                         one given text;
* `Pattern.blank`, `Pattern.lineComment`, `Pattern.blockComment`   ignored text;
* `Pattern.gap`                                             as much ignored text as there is.

For each pattern `append_of_…` says that the piece and the rest make up the text again; for the gap,
which may be empty, `gap_append` says so, and `ignored_gap` that no ignored text is left behind it.
-/

namespace Typings

namespace CodePoint

/-- a letter, an underscore or a dollar sign -/
def isNameStart (x : CodePoint) : Bool := x.satisfies fun c => c.isAlpha || c == '_' || c == '$'

/-- a code point that may stand in a name behind its first one -/
def isNamePart (x : CodePoint) : Bool := x.satisfies fun c => c.isAlphanum || c == '_' || c == '$'

def isHexDigit (x : CodePoint) : Bool :=
  x.satisfies fun c => c.isDigit || ('a' ≤ c && c ≤ 'f') || ('A' ≤ c && c ≤ 'F')

/-- a blank: space, tab, form feed, carriage return or line feed -/
def isBlank (x : CodePoint) : Bool :=
  x.satisfies fun c => c == ' ' || c == '\t' || c == '\x0c' || c == '\r' || c == '\n'

end CodePoint

/-- a text is spelled as a name: `[A-Za-z_$][A-Za-z0-9_$]*` -/
def Text.isName : Text → Bool
  | [] => false
  | x :: rest => x.isNameStart && rest.all CodePoint.isNamePart

namespace Pattern

/-! ## One given text -/

/-- the rest of a text behind a given front -/
def after? : Text → Text → Option Text
  | [], t => some t
  | _ :: _, [] => none
  | x :: front, y :: t => if x = y then after? front t else none

/-- the given text itself -/
def exactly (front t : Text) : Option (Text × Text) := (after? front t).map fun rest => (front, rest)

theorem append_of_after? {front t rest : Text} (h : after? front t = some rest) :
    front ++ rest = t := by
  induction front generalizing t with
  | nil => simp_all [after?]
  | cons x front ih =>
    cases t with
    | nil => simp [after?] at h
    | cons y t =>
      rw [after?] at h
      split at h
      · rename_i e
        rw [List.cons_append, ih h, e]
      · simp at h

theorem after?_append (front rest : Text) : after? front (front ++ rest) = some rest := by
  induction front with
  | nil => rfl
  | cons x front ih => rw [List.cons_append, after?, if_pos rfl, ih]

theorem append_of_exactly {front t : Text} {p : Text × Text} (h : exactly front t = some p) :
    p.1 ++ p.2 = t := by
  rw [exactly, Option.map_eq_some_iff] at h
  obtain ⟨rest, h, rfl⟩ := h
  exact append_of_after? h

/-! ## Names, numerals and quoted text -/

/-- one or more code points of a class -/
def many1 (p : CodePoint → Bool) (t : Text) : Option (Text × Text) :=
  match t.takeWhile p with
  | [] => none
  | x :: piece => some (x :: piece, t.dropWhile p)

def name : Text → Option (Text × Text)
  | [] => none
  | x :: t =>
    if x.isNameStart then some (x :: t.takeWhile CodePoint.isNamePart, t.dropWhile CodePoint.isNamePart)
    else none

/-- decimal digits, and if digits follow a point the point and these digits -/
def decimals (t : Text) : Option (Text × Text) :=
  (many1 CodePoint.isDecimal t).map fun digits =>
    match digits.2 with
    | .scalar '.' :: rest =>
      match many1 CodePoint.isDecimal rest with
      | some more => (digits.1 ++ .scalar '.' :: more.1, more.2)
      | none => digits
    | _ => digits

/-- an optional minus sign and decimals -/
def signed : Text → Option (Text × Text)
  | .scalar '-' :: t => (decimals t).map fun p => ('-' :: p.1, p.2)
  | t => decimals t

/-- hexadecimal digits behind `0x` or `0X` -/
def hexadecimal : Text → Option (Text × Text)
  | .scalar '0' :: .scalar 'x' :: t => (many1 CodePoint.isHexDigit t).map fun p => ('0' :: 'x' :: p.1, p.2)
  | .scalar '0' :: .scalar 'X' :: t => (many1 CodePoint.isHexDigit t).map fun p => ('0' :: 'X' :: p.1, p.2)
  | _ => none

/-- a hexadecimal number, or else a signed decimal one -/
def numeral (t : Text) : Option (Text × Text) := (hexadecimal t).or (signed t)

/-- the rest of quoted text up to the closing quote.  A backslash takes the next code point with
it; no line feed may stand in between. -/
def untilQuote (quote : Char) : Text → Option (Text × Text)
  | [] => none
  | .scalar '\\' :: y :: t =>
    if y = '\n' then none else (untilQuote quote t).map fun p => ('\\' :: y :: p.1, p.2)
  | x :: t =>
    if x = quote then some ([x], t)
    else if x = '\n' ∨ x = '\\' then none
    else (untilQuote quote t).map fun p => (x :: p.1, p.2)

def quoted : Text → Option (Text × Text)
  | .scalar '"' :: t => (untilQuote '"' t).map fun p => ('"' :: p.1, p.2)
  | .scalar '\'' :: t => (untilQuote '\'' t).map fun p => ('\'' :: p.1, p.2)
  | _ => none

theorem append_of_many1 {q : CodePoint → Bool} {t : Text} {p : Text × Text}
    (h : many1 q t = some p) : p.1 ++ p.2 = t := by
  rw [many1] at h
  split at h
  · simp at h
  · rename_i e
    cases h
    rw [← e, List.takeWhile_append_dropWhile]

theorem append_of_name {t : Text} {p : Text × Text} (h : name t = some p) : p.1 ++ p.2 = t := by
  cases t with
  | nil => simp [name] at h
  | cons x t =>
    rw [name] at h
    split at h
    · cases h
      rw [List.cons_append, List.takeWhile_append_dropWhile]
    · simp at h

theorem append_of_decimals {t : Text} {p : Text × Text} (h : decimals t = some p) :
    p.1 ++ p.2 = t := by
  rw [decimals, Option.map_eq_some_iff] at h
  obtain ⟨digits, found, h⟩ := h
  have whole := append_of_many1 found
  subst h
  split
  · rename_i rest e
    split
    · rename_i more found
      rw [List.append_assoc, List.cons_append, append_of_many1 found, ← e, whole]
    · exact whole
  · exact whole

theorem append_of_signed {t : Text} {p : Text × Text} (h : signed t = some p) :
    p.1 ++ p.2 = t := by
  rw [signed.eq_def] at h
  split at h
  · obtain ⟨q, found, rfl⟩ := Option.map_eq_some_iff.mp h
    rw [List.cons_append, append_of_decimals found]
  · exact append_of_decimals h

theorem append_of_hexadecimal {t : Text} {p : Text × Text} (h : hexadecimal t = some p) :
    p.1 ++ p.2 = t := by
  rw [hexadecimal.eq_def] at h
  split at h
  · obtain ⟨q, found, rfl⟩ := Option.map_eq_some_iff.mp h
    rw [List.cons_append, List.cons_append, append_of_many1 found]
  · obtain ⟨q, found, rfl⟩ := Option.map_eq_some_iff.mp h
    rw [List.cons_append, List.cons_append, append_of_many1 found]
  · simp at h

theorem append_of_numeral {t : Text} {p : Text × Text} (h : numeral t = some p) :
    p.1 ++ p.2 = t := by
  rw [numeral, Option.or_eq_some_iff] at h
  rcases h with h | ⟨_, h⟩
  · exact append_of_hexadecimal h
  · exact append_of_signed h

theorem append_of_untilQuote {quote : Char} {t : Text} {p : Text × Text}
    (h : untilQuote quote t = some p) : p.1 ++ p.2 = t := by
  fun_induction untilQuote quote t generalizing p with
  | case1 => simp at h
  | case2 => simp at h
  | case3 y t _ ih =>
    obtain ⟨q, found, rfl⟩ := Option.map_eq_some_iff.mp h
    rw [List.cons_append, List.cons_append, ih found]
  | case4 => cases h; rfl
  | case5 => simp at h
  | case6 x t _ _ _ ih =>
    obtain ⟨q, found, rfl⟩ := Option.map_eq_some_iff.mp h
    rw [List.cons_append, ih found]

theorem append_of_quoted {t : Text} {p : Text × Text} (h : quoted t = some p) :
    p.1 ++ p.2 = t := by
  rw [quoted.eq_def] at h
  split at h
  · obtain ⟨q, found, rfl⟩ := Option.map_eq_some_iff.mp h
    rw [List.cons_append, append_of_untilQuote found]
  · obtain ⟨q, found, rfl⟩ := Option.map_eq_some_iff.mp h
    rw [List.cons_append, append_of_untilQuote found]
  · simp at h

/-! ## Ignored text -/

def blank (t : Text) : Option (Text × Text) := many1 CodePoint.isBlank t

/-- two slashes and the rest of the line, without its line feed -/
def lineComment : Text → Option (Text × Text)
  | .scalar '/' :: .scalar '/' :: t =>
    some ('/' :: '/' :: t.takeWhile (· ≠ '\n'), t.dropWhile (· ≠ '\n'))
  | _ => none

/-- up to the first `*/` -/
def untilStarSlash : Text → Option (Text × Text)
  | [] => none
  | .scalar '*' :: .scalar '/' :: t => some (['*', '/'], t)
  | x :: t => (untilStarSlash t).map fun p => (x :: p.1, p.2)

/-- text between `/*` and the first `*/` behind it -/
def blockComment : Text → Option (Text × Text)
  | .scalar '/' :: .scalar '*' :: t => (untilStarSlash t).map fun p => ('/' :: '*' :: p.1, p.2)
  | _ => none

def ignored (t : Text) : Option (Text × Text) := ((blank t).or (lineComment t)).or (blockComment t)

/-- pieces of ignored text, at most one for each code point of `fuel` -/
def gapWithin : Text → Text → Text × Text
  | [], t => ([], t)
  | _ :: fuel, t =>
    match ignored t with
    | none => ([], t)
    | some (piece, rest) => ((piece ++ (gapWithin fuel rest).1), (gapWithin fuel rest).2)

/-- all ignored text at the front; every piece has a code point, so the text itself is fuel enough -/
def gap (t : Text) : Text × Text := gapWithin t t

theorem append_of_blank {t : Text} {p : Text × Text} (h : blank t = some p) : p.1 ++ p.2 = t :=
  append_of_many1 h

theorem append_of_lineComment {t : Text} {p : Text × Text} (h : lineComment t = some p) :
    p.1 ++ p.2 = t := by
  rw [lineComment.eq_def] at h
  split at h
  · cases h
    rw [List.cons_append, List.cons_append, List.takeWhile_append_dropWhile]
  · simp at h

theorem append_of_untilStarSlash {t : Text} {p : Text × Text} (h : untilStarSlash t = some p) :
    p.1 ++ p.2 = t := by
  fun_induction untilStarSlash t generalizing p with
  | case1 => simp at h
  | case2 => cases h; rfl
  | case3 x t _ ih =>
    obtain ⟨q, found, rfl⟩ := Option.map_eq_some_iff.mp h
    rw [List.cons_append, ih found]

theorem append_of_blockComment {t : Text} {p : Text × Text} (h : blockComment t = some p) :
    p.1 ++ p.2 = t := by
  rw [blockComment.eq_def] at h
  split at h
  · obtain ⟨q, found, rfl⟩ := Option.map_eq_some_iff.mp h
    rw [List.cons_append, List.cons_append, append_of_untilStarSlash found]
  · simp at h

theorem append_of_ignored {t : Text} {p : Text × Text} (h : ignored t = some p) :
    p.1 ++ p.2 = t := by
  rw [ignored, Option.or_eq_some_iff, Option.or_eq_some_iff] at h
  rcases h with (h | ⟨_, h⟩) | ⟨_, h⟩
  · exact append_of_blank h
  · exact append_of_lineComment h
  · exact append_of_blockComment h

theorem gapWithin_append (fuel t : Text) :
    (gapWithin fuel t).1 ++ (gapWithin fuel t).2 = t := by
  induction fuel generalizing t with
  | nil => rfl
  | cons _ fuel ih =>
    rw [gapWithin]
    split
    · rfl
    · rename_i h
      rw [List.append_assoc, ih]
      exact append_of_ignored h

theorem gap_append (t : Text) : (gap t).1 ++ (gap t).2 = t := gapWithin_append t t

theorem ne_nil_of_many1 {q : CodePoint → Bool} {t : Text} {p : Text × Text}
    (h : many1 q t = some p) : p.1 ≠ [] := by
  rw [many1] at h
  split at h
  · simp at h
  · cases h
    exact List.cons_ne_nil _ _

theorem ne_nil_of_ignored {t : Text} {p : Text × Text} (h : ignored t = some p) : p.1 ≠ [] := by
  rw [ignored, Option.or_eq_some_iff, Option.or_eq_some_iff] at h
  rcases h with (h | ⟨_, h⟩) | ⟨_, h⟩
  · exact ne_nil_of_many1 h
  · rw [lineComment.eq_def] at h
    split at h
    · cases h
      exact List.cons_ne_nil _ _
    · simp at h
  · rw [blockComment.eq_def] at h
    split at h
    · obtain ⟨q, _, rfl⟩ := Option.map_eq_some_iff.mp h
      exact List.cons_ne_nil _ _
    · simp at h

theorem length_lt_of_ignored {t : Text} {p : Text × Text} (h : ignored t = some p) :
    p.2.length < t.length := by
  have pos := List.length_pos_iff.mpr (ne_nil_of_ignored h)
  rw [← append_of_ignored h, List.length_append]
  omega

theorem ignored_gapWithin {fuel t : Text} (h : t.length ≤ fuel.length) :
    ignored (gapWithin fuel t).2 = none := by
  induction fuel generalizing t with
  | nil =>
    obtain rfl := List.length_eq_zero_iff.mp (Nat.le_zero.mp h)
    rfl
  | cons _ fuel ih =>
    rw [gapWithin]
    split
    · assumption
    · rename_i found
      exact ih (Nat.le_of_lt_succ (Nat.lt_of_lt_of_le (length_lt_of_ignored found) h))

theorem ignored_gap (t : Text) : ignored (gap t).2 = none := ignored_gapWithin (Nat.le_refl _)

end Pattern

end Typings
