import Mathlib.Data.List.Chain
import Typings.Json.Print
import Typings.Proofs.Text.Quoting
/-!
# Structured values are read back

A decoder for structured values in text: blanks between the parts, escapes with both halves of a pair as one
code point, integers without leading zeros.  It reads what is printed, in any layout of blanks, as the value
that was printed.  Only a high half directly in front of a low half does not come back: the two are read as
one code point.

* `Json.decode?`            the value that a text spells; numbers with a fraction are no values here;
* `Text.Unpaired`           no high half stands directly in front of a low half;
* `Json.string?_string`     a text in quotes is read;
* `Json.decode?_printAt`    a value is read in any layout;
* `Json.eq_of_printAt`      so different values are printed differently.
-/

namespace Typings

namespace Json

/-! ## The decoder -/

/-- a blank between the parts of a value -/
def isSpace (x : CodePoint) : Bool := x == ' ' || x == '\t' || x == '\n' || x == '\r'

def skip (t : Text) : Text := t.dropWhile isSpace

/-- the letters and signs behind a backslash, and what they stand for -/
def signs : List (Char × Char) :=
  [('"', '"'), ('\\', '\\'), ('/', '/'), ('b', '\x08'), ('f', '\x0c'), ('n', '\n'), ('r', '\r'), ('t', '\t')]

/-- the number of four hexadecimal digits -/
def unit? (t : Text) : Option (Nat × Text) :=
  if (t.take 4).length = 4 ∧ (t.take 4).all CodePoint.isHexDigit then
    some (Literal.hexNumber (t.take 4), t.drop 4)
  else none

def isHighHalf (n : Nat) : Bool := 0xD800 ≤ n && n < 0xDC00

def isLowHalf (n : Nat) : Bool := 0xDC00 ≤ n && n < 0xE000

/-- a low half as an escape -/
def low? : Text → Option (Nat × Text)
  | .scalar '\\' :: .scalar 'u' :: t => (unit? t).filter fun p => isLowHalf p.1
  | _ => none

/-- the code point with the number behind the letter of an escape; a high half goes with a low half that is
escaped behind it -/
def numbered? (t : Text) : Option (CodePoint × Text) :=
  (unit? t).bind fun p =>
    match if isHighHalf p.1 then low? p.2 else none with
    | some low => (CodePoint.ofNat? (0x10000 + (p.1 - 0xD800) * 0x400 + (low.1 - 0xDC00))).map (·, low.2)
    | none => (CodePoint.ofNat? p.1).map (·, p.2)

/-- what the code points behind a backslash stand for -/
def escaped? : Text → Option (CodePoint × Text)
  | [] | .surrogate _ :: _ => none
  | .scalar c :: t => if c = 'u' then numbered? t else (signs.lookup c).map fun v => (.scalar v, t)

/-- the text up to the closing quote, of fewer code points than `fuel` -/
def quotedWithin : Nat → Text → Option (Text × Text)
  | 0, _ | _, [] => none
  | fuel + 1, x :: t =>
    if x = '"' then some ([], t)
    else if x = '\\' then
      (escaped? t).bind fun p => (quotedWithin fuel p.2).map fun q => (p.1 :: q.1, q.2)
    else if x.toNat < 0x20 then none
    else (quotedWithin fuel t).map fun q => (x :: q.1, q.2)

def string? : Text → Option (Text × Text)
  | [] => none
  | x :: t => if x = '"' then quotedWithin t.length t else none

def isDigit (x : CodePoint) : Bool := x.satisfies Char.isDigit

/-- a number in decimal digits, without a zero in front of others -/
def natural? (t : Text) : Option (Nat × Text) :=
  match Text.scalars? (t.takeWhile isDigit) with
  | none | some [] | some ('0' :: _ :: _) => none
  | some digits => some (Nat.ofDigitChars 10 digits 0, t.dropWhile isDigit)

def integer? : Text → Option (Int × Text)
  | [] => none
  | x :: t =>
    if x = '-' then (natural? t).map fun p => (-p.1, p.2)
    else (natural? (x :: t)).map fun p => (p.1, p.2)

def word? (t : Text) : Option (Json × Text) :=
  [("null", null), ("true", bool true), ("false", bool false)].findSome? fun p : String × Json =>
    (Pattern.after? p.1 t).map (p.2, ·)

section
variable {α : Type} (part : Text → Option (α × Text)) (close : Char)

/-- parts with commas between them and the closing sign behind them, `fuel` parts at most -/
def seriesWithin : Nat → Text → Option (List α × Text)
  | 0, _ => none
  | fuel + 1, t =>
    (part (skip t)).bind fun p =>
      match skip p.2 with
      | [] => none
      | x :: t =>
        if x = close then some ([p.1], t)
        else if x = ',' then (seriesWithin fuel t).map fun q => (p.1 :: q.1, q.2)
        else none

/-- the parts behind the opening sign, up to the closing one -/
def enclosed? (t : Text) : Option (List α × Text) :=
  match skip t with
  | [] => none
  | x :: rest => if x = close then some ([], rest) else seriesWithin part close t.length t

end

/-- a name, and a value behind a colon -/
def member? (value : Text → Option (Json × Text)) (t : Text) : Option ((Text × Json) × Text) :=
  (string? t).bind fun p =>
    match skip p.2 with
    | [] => none
    | x :: t => if x = ':' then (value (skip t)).map fun q => ((p.1, q.1), q.2) else none

/-- a value, with fewer than `fuel` values around each other -/
def valueWithin : Nat → Text → Option (Json × Text)
  | 0, _ | _, [] => none
  | fuel + 1, x :: t =>
    if x = '"' then (string? (x :: t)).map fun p => (text p.1, p.2)
    else if x = '[' then (enclosed? (valueWithin fuel) ']' t).map fun p => (array p.1, p.2)
    else if x = '{' then (enclosed? (member? (valueWithin fuel)) '}' t).map fun p => (object p.1, p.2)
    else ((integer? (x :: t)).map fun p => (int p.1, p.2)).or (word? (x :: t))

/-- the value that a text spells, with blanks around it -/
def decode? (t : Text) : Option Json :=
  (valueWithin t.length (skip t)).bind fun p => if skip p.2 = [] then some p.1 else none

end Json

/-! ## Strings -/

/-- no high half stands directly in front of a low half -/
def Text.Unpaired (t : Text) : Prop :=
  t.IsChain fun x y => ¬ (Json.isHighHalf x.toNat = true ∧ Json.isLowHalf y.toNat = true)

instance (t : Text) : Decidable t.Unpaired := inferInstanceAs (Decidable (List.IsChain _ t))

namespace Json

theorem unit?_hexDigits {n : Nat} (small : n < 0x10000) (rest : Text) :
    unit? (Quoted.hexDigits 4 n ++ rest) = some (n, rest) := by
  have length := Literal.length_hexDigits 4 n
  unfold unit?
  rw [List.take_left' length, List.drop_left' length, Literal.hexNumber_hexDigits small,
    if_pos ⟨length, List.all_eq_true.mpr (Literal.isHexDigit_hexDigits 4 n)⟩]

theorem low?_escapeUnit {n : Nat} (small : n < 0x10000) (rest : Text) :
    low? (escapeUnit n ++ rest) = if isLowHalf n = true then some (n, rest) else none := by
  rw [escapeUnit, List.cons_append, List.cons_append, low?, unit?_hexDigits small, Option.filter_some]

/-- a text that does not begin with a backslash and the letter of an escape by number -/
theorem low?_eq_none {t : Text} (h : ∀ rest, t ≠ .scalar '\\' :: .scalar 'u' :: rest) : low? t = none := by
  unfold low?
  split
  · exact absurd rfl (h _)
  · rfl

/-- what a code point is written as between quotes -/
inductive Piece (x : CodePoint) : Text → Prop
  | plain (notQuote : x ≠ '"') (notBackslash : x ≠ '\\') (large : ¬ x.toNat < 0x20) : Piece x [x]
  | sign {c v : Char} (value : x = .scalar v) (stands : signs.lookup c = some v) (notLetter : c ≠ 'u') :
      Piece x [.scalar '\\', .scalar c]
  | unit (small : x.toNat < 0x10000) : Piece x (escapeUnit x.toNat)
  | pair (large : 0x10000 ≤ x.toNat) :
      Piece x (escapeUnit (0xD800 + (x.toNat - 0x10000) / 0x400) ++
        escapeUnit (0xDC00 + (x.toNat - 0x10000) % 0x400))

theorem escape_piece (x : CodePoint) : Piece x (escape x) := by
  unfold escape
  split
  · exact .sign ‹_› rfl (by decide)
  split
  · exact .sign ‹_› rfl (by decide)
  split
  · exact .sign ‹_› rfl (by decide)
  split
  · exact .sign ‹_› rfl (by decide)
  split
  · exact .sign ‹_› rfl (by decide)
  split
  · exact .sign ‹_› rfl (by decide)
  split
  · exact .sign ‹_› rfl (by decide)
  split
  · rename_i range
    exact .plain ‹_› ‹_› (Nat.not_lt.mpr range.1)
  split
  · exact .unit ‹_›
  · exact .pair (Nat.not_lt.mp ‹_›)

namespace Piece
variable {x : CodePoint} {piece : Text}

theorem length_pos (h : Piece x piece) : 0 < piece.length := by
  cases h <;> exact Nat.succ_pos _

/-- a piece does not begin with the escape of a low half, unless it is that -/
theorem low? (h : Piece x piece) (notLow : isLowHalf x.toNat = false) (rest : Text) :
    Json.low? (piece ++ rest) = none := by
  cases h with
  | plain _ notBackslash => exact low?_eq_none fun _ e => notBackslash (List.cons.inj e).1
  | sign _ _ notLetter =>
    exact low?_eq_none fun _ e => notLetter (CodePoint.scalar.inj (List.cons.inj (List.cons.inj e).2).1)
  | unit small =>
    rw [low?_escapeUnit small, notLow]
    rfl
  | pair large =>
    have bound := x.toNat_lt
    have high : 0xD800 + (x.toNat - 0x10000) / 0x400 < 0xDC00 := by omega
    have notLow : isLowHalf (0xD800 + (x.toNat - 0x10000) / 0x400) = false := by
      rw [isLowHalf, decide_eq_false (Nat.not_le.mpr high), Bool.false_and]
    rw [List.append_assoc, low?_escapeUnit (Nat.lt_trans high (by decide)), notLow]
    rfl

/-- a piece is read as the code point that it is written for -/
theorem quotedWithin (h : Piece x piece) {rest : Text}
    (alone : isHighHalf x.toNat = true → Json.low? rest = none) (fuel : Nat) :
    Json.quotedWithin (fuel + 1) (piece ++ rest) =
      (Json.quotedWithin fuel rest).map fun q => (x :: q.1, q.2) := by
  have backslash : CodePoint.scalar '\\' ≠ '"' := by decide
  cases h with
  | plain notQuote notBackslash large =>
    rw [List.cons_append, List.nil_append, Json.quotedWithin, if_neg notQuote, if_neg notBackslash, if_neg large]
  | @sign c v value stands notLetter =>
    have read : escaped? (.scalar c :: rest) = some (x, rest) := by
      rw [escaped?, if_neg notLetter, stands, Option.map_some, value]
    rw [List.cons_append, List.cons_append, List.nil_append, Json.quotedWithin, if_neg backslash, if_pos rfl, read,
      Option.bind_some]
  | unit small =>
    have read : escaped? (.scalar 'u' :: (Quoted.hexDigits 4 x.toNat ++ rest)) = some (x, rest) := by
      rw [escaped?, if_pos rfl, numbered?, unit?_hexDigits small, Option.bind_some]
      have single : (if isHighHalf x.toNat then Json.low? rest else none) = none := by
        split
        · exact alone ‹_›
        · rfl
      simp only [single, CodePoint.ofNat?_toNat, Option.map_some]
    rw [escapeUnit, List.cons_append, List.cons_append, Json.quotedWithin, if_neg backslash, if_pos rfl, read,
      Option.bind_some]
  | pair large =>
    have bound := x.toNat_lt
    have read : escaped? (.scalar 'u' :: (Quoted.hexDigits 4 (0xD800 + (x.toNat - 0x10000) / 0x400) ++
        (escapeUnit (0xDC00 + (x.toNat - 0x10000) % 0x400) ++ rest))) = some (x, rest) := by
      have isHigh : isHighHalf (0xD800 + (x.toNat - 0x10000) / 0x400) = true := by
        rw [isHighHalf, Bool.and_eq_true, decide_eq_true_eq, decide_eq_true_eq]
        omega
      have isLow : isLowHalf (0xDC00 + (x.toNat - 0x10000) % 0x400) = true := by
        rw [isLowHalf, Bool.and_eq_true, decide_eq_true_eq, decide_eq_true_eq]
        omega
      have joined : 0x10000 + (0xD800 + (x.toNat - 0x10000) / 0x400 - 0xD800) * 0x400 +
          (0xDC00 + (x.toNat - 0x10000) % 0x400 - 0xDC00) = x.toNat := by omega
      rw [escaped?, if_pos rfl, numbered?, unit?_hexDigits (by omega), Option.bind_some]
      simp only [isHigh, if_true, low?_escapeUnit (show 0xDC00 + (x.toNat - 0x10000) % 0x400 < 0x10000 by omega),
        isLow, joined, CodePoint.ofNat?_toNat, Option.map_some]
    rw [escapeUnit, List.cons_append, List.cons_append, List.cons_append, List.cons_append, Json.quotedWithin, if_neg backslash, if_pos rfl,
      List.append_assoc, read, Option.bind_some]

end Piece

/-- the text between quotes is read up to the closing quote -/
theorem quotedWithin_flatMap {t : Text} (unpaired : t.Unpaired) (rest : Text) {fuel : Nat}
    (enough : (t.flatMap escape).length < fuel) :
    quotedWithin fuel (t.flatMap escape ++ .scalar '"' :: rest) = some (t, rest) := by
  induction t generalizing fuel with
  | nil =>
    obtain ⟨fuel, rfl⟩ := Nat.exists_eq_succ_of_ne_zero (Nat.ne_zero_of_lt enough)
    rw [List.flatMap_nil, List.nil_append, quotedWithin, if_pos rfl]
  | cons x t ih =>
    obtain ⟨next, unpaired⟩ := List.isChain_cons.mp unpaired
    have piece := escape_piece x
    have some := piece.length_pos
    rw [List.flatMap_cons, List.length_append] at enough
    obtain ⟨fuel, rfl⟩ := Nat.exists_eq_succ_of_ne_zero (Nat.ne_zero_of_lt enough)
    have alone : isHighHalf x.toNat = true → low? (t.flatMap escape ++ .scalar '"' :: rest) = none := by
      intro isHigh
      cases t with
      | nil => rfl
      | cons y t =>
        rw [List.flatMap_cons, List.append_assoc]
        exact (escape_piece y).low? (Bool.eq_false_iff.mpr fun isLow => next y rfl ⟨isHigh, isLow⟩) _
    rw [List.flatMap_cons, List.append_assoc, piece.quotedWithin alone, ih unpaired (by omega), Option.map_some]

/-- a text in quotes is read -/
theorem string?_string {t : Text} (unpaired : t.Unpaired) (rest : Text) :
    string? (string t ++ rest) = some (t, rest) := by
  rw [string, List.cons_append, List.cons_append, List.append_assoc, string?, if_pos rfl, List.singleton_append]
  refine quotedWithin_flatMap unpaired rest ?_
  rw [List.length_append, List.length_cons]
  omega

/-! ## Numbers -/

theorem ofNat_eq (n : Nat) : Text.ofNat n = (Nat.toDigits 10 n).map .scalar := by
  rw [Text.ofNat, Text.ofString, Nat.toString_eq_repr, Nat.toList_repr]

theorem ofDigitChars_toDigits (n : Nat) : Nat.ofDigitChars 10 (Nat.toDigits 10 n) 0 = n :=
  Nat.ofDigitChars_toDigits (by decide) (by decide)

/-- a number has digits, and no zero stands in front of others -/
theorem toDigits_canonical (n : Nat) :
    Nat.toDigits 10 n ≠ [] ∧ ∀ c rest, Nat.toDigits 10 n ≠ '0' :: c :: rest := by
  induction n using Nat.strongRecOn with
  | ind n ih =>
    rw [Nat.toDigits_eq_if (by decide)]
    split
    · exact ⟨List.cons_ne_nil _ _, fun _ _ e => nomatch (List.cons.inj e).2⟩
    · have value := ofDigitChars_toDigits (n / 10)
      obtain ⟨some, noZero⟩ := ih (n / 10) (by omega)
      refine ⟨List.append_ne_nil_of_left_ne_nil some _, fun c rest e => ?_⟩
      -- a zero in front would stand in front of the further digits of the tenth part, or be all of it
      cases front : Nat.toDigits 10 (n / 10) with
      | nil => exact some front
      | cons d more =>
        rw [front] at e value
        obtain ⟨rfl, _⟩ := List.cons.inj e
        cases more with
        | nil =>
          have zero : 0 = n / 10 := value
          omega
        | cons d' more => exact noZero d' more front

theorem isDigit_ofNat (n : Nat) : ∀ x ∈ Text.ofNat n, isDigit x = true := by
  rw [ofNat_eq]
  exact List.forall_mem_map.mpr fun c mem => Nat.isDigit_of_mem_toDigits (by decide) (by decide) mem

theorem natural?_ofNat (n : Nat) {rest : Text} (ends : ¬ rest.Begins isDigit) :
    natural? (Text.ofNat n ++ rest) = some (n, rest) := by
  obtain ⟨take, drop⟩ := Pattern.takeWhile_append (isDigit_ofNat n) ends
  obtain ⟨some, noZero⟩ := toDigits_canonical n
  have value := ofDigitChars_toDigits n
  rw [natural?, take, drop, ofNat_eq, Text.scalars?_map_scalar]
  generalize Nat.toDigits 10 n = ds at some noZero value
  split
  · rename_i e
    cases e
  · rename_i e
    exact absurd (Option.some.inj e) some
  · rename_i c rest e
    exact absurd (Option.some.inj e) (noZero c rest)
  · rename_i e
    cases e
    rw [value]

theorem exists_cons_ofNat (n : Nat) : ∃ x rest, Text.ofNat n = x :: rest ∧ isDigit x = true := by
  have some : Text.ofNat n ≠ [] := by
    rw [ofNat_eq]
    exact fun empty => (toDigits_canonical n).1 (List.map_eq_nil_iff.mp empty)
  obtain ⟨x, rest, split⟩ := List.exists_cons_of_ne_nil some
  exact ⟨x, rest, split, isDigit_ofNat n x (split ▸ List.mem_cons_self)⟩

theorem integer?_ofInt (n : Int) {rest : Text} (ends : ¬ rest.Begins isDigit) :
    integer? (Text.ofInt n ++ rest) = some (n, rest) := by
  cases n with
  | ofNat n =>
    have read := natural?_ofNat n ends
    obtain ⟨x, more, split, digit⟩ := exists_cons_ofNat n
    have noSign : x ≠ '-' := by
      rintro rfl
      exact absurd digit (by decide)
    rw [split, List.cons_append] at read
    rw [Text.ofInt, split, List.cons_append, integer?, if_neg noSign, read, Option.map_some]
    rfl
  | negSucc n =>
    rw [Text.ofInt, List.append_assoc]
    show integer? (.scalar '-' :: (Text.ofNat (n + 1) ++ rest)) = _
    rw [integer?, if_pos rfl, natural?_ofNat (n + 1) ends, Option.map_some]
    rfl

/-! ## Parts -/

theorem skip_append {blanks : Text} (h : ∀ x ∈ blanks, isSpace x = true) (t : Text) :
    skip (blanks ++ t) = skip t :=
  List.dropWhile_append_of_pos h

theorem skip_cons {x : CodePoint} (h : isSpace x = false) (t : Text) : skip (x :: t) = x :: t := by
  rw [skip, List.dropWhile_cons, if_neg (Bool.eq_false_iff.mp h)]

/-- a layout that sets the parts apart by blanks only -/
structure Layout.Spaced (l : Layout) : Prop where
  opening (depth : Nat) : ∀ x ∈ l.opening depth, isSpace x = true
  between (depth : Nat) : ∃ blanks, l.between depth = .scalar ',' :: blanks ∧ ∀ x ∈ blanks, isSpace x = true
  closing (depth : Nat) : ∀ x ∈ l.closing depth, isSpace x = true

theorem Layout.line_spaced : line.Spaced where
  opening _ _ mem := nomatch mem
  between _ := ⟨[.scalar ' '], rfl, by decide⟩
  closing _ _ mem := nomatch mem

theorem Layout.newline_spaced (depth : Nat) : ∀ x ∈ newline depth, isSpace x = true := by
  refine List.forall_mem_cons.mpr ⟨by decide, fun x mem => ?_⟩
  rw [List.eq_of_mem_replicate mem]
  decide

theorem Layout.indented_spaced : indented.Spaced where
  opening depth := newline_spaced (depth + 1)
  between depth := ⟨newline (depth + 1), rfl, newline_spaced (depth + 1)⟩
  closing := newline_spaced

section
variable {α : Type} {l : Layout} {part : Text → Option (α × Text)} {render : α → Text} {close : Char}

/-- how a part begins: neither with a blank nor with the closing sign -/
def Opens (close : Char) (t : Text) : Prop := ∃ x rest, t = x :: rest ∧ isSpace x = false ∧ x ≠ close

/-- a part is read, and begins so that it is seen -/
structure Parted (part : Text → Option (α × Text)) (render : α → Text) (close : Char) (x : α) : Prop where
  opens : Opens close (render x)
  read {rest : Text} : ¬ rest.Begins isDigit → part (render x ++ rest) = some (x, rest)

/-- a sign that closes an array or object -/
structure IsClosing (close : Char) : Prop where
  notComma : close ≠ ','
  notSpace : isSpace close = false
  notDigit : isDigit close = false

theorem skip_of_opens {t : Text} (h : Opens close t) (rest : Text) : skip (t ++ rest) = t ++ rest := by
  obtain ⟨x, more, rfl, notSpace, _⟩ := h
  exact skip_cons notSpace _

theorem not_isDigit_of_isSpace {x : CodePoint} (space : isSpace x = true) : isDigit x = false := by
  simp only [isSpace, Bool.or_eq_true, beq_iff_eq] at space
  rcases space with ((rfl | rfl) | rfl) | rfl <;> decide

/-- no digit stands behind a part -/
theorem not_begins_blanks {blanks : Text} (blank : ∀ x ∈ blanks, isSpace x = true) {x : CodePoint}
    (notDigit : isDigit x = false) (rest : Text) : ¬ Text.Begins isDigit (blanks ++ x :: rest) := by
  cases blanks with
  | nil => exact Text.not_begins_cons notDigit rest
  | cons y blanks =>
    exact Text.not_begins_cons (not_isDigit_of_isSpace (blank y List.mem_cons_self)) _

/-- parts that are not empty take as much room as there are parts -/
theorem length_le_flatMap {f : α → Text} {xs : List α} (some : ∀ x ∈ xs, f x ≠ []) :
    xs.length ≤ (xs.flatMap f).length := by
  induction xs with
  | nil => exact Nat.zero_le _
  | cons x xs ih =>
    obtain ⟨here, further⟩ := List.forall_mem_cons.mp some
    have := List.length_pos_of_ne_nil here
    have := ih further
    rw [List.flatMap_cons, List.length_append, List.length_cons]
    omega

variable (spaced : l.Spaced) (isClosing : IsClosing close) (depth : Nat) (rest : Text)
include spaced isClosing

theorem seriesWithin_of_parted {x : α} {xs : List α} (parted : ∀ y ∈ x :: xs, Parted part render close y)
    {blanks : Text} (blank : ∀ y ∈ blanks, isSpace y = true) {fuel : Nat} (enough : xs.length < fuel) :
    seriesWithin part close fuel (blanks ++ (render x ++ (xs.flatMap (l.between depth ++ render ·) ++
      (l.closing depth ++ .scalar close :: rest)))) = some (x :: xs, rest) := by
  obtain ⟨fuel, rfl⟩ := Nat.exists_eq_succ_of_ne_zero (Nat.ne_zero_of_lt enough)
  obtain ⟨here, others⟩ := List.forall_mem_cons.mp parted
  induction xs generalizing x blanks fuel with
  | nil =>
    have ends := not_begins_blanks (spaced.closing depth) isClosing.notDigit rest
    rw [List.flatMap_nil, List.nil_append, seriesWithin, skip_append blank, skip_of_opens here.opens, here.read ends,
      Option.bind_some]
    simp only [skip_append (spaced.closing depth), skip_cons isClosing.notSpace, if_true]
  | cons y xs ih =>
    obtain ⟨blanks', between, blank'⟩ := spaced.between depth
    obtain ⟨next, further⟩ := List.forall_mem_cons.mp others
    rw [List.length_cons] at enough
    obtain ⟨fuel, rfl⟩ := Nat.exists_eq_succ_of_ne_zero (show fuel ≠ 0 by omega)
    have later := ih others blank' fuel (by omega) next further
    have comma : isSpace ',' = false := by decide
    have notClosing : CodePoint.scalar ',' ≠ close := fun e => isClosing.notComma (CodePoint.scalar.inj e).symm
    rw [List.flatMap_cons, between, List.cons_append, List.append_assoc, List.cons_append, List.append_assoc,
      seriesWithin, skip_append blank, skip_of_opens here.opens,
      here.read (Text.not_begins_cons (by decide) _), Option.bind_some]
    simp only [skip_cons comma, if_neg notClosing, if_true]
    rw [← between, later, Option.map_some]

theorem enclosed?_of_parted {x : α} {xs : List α} (parted : ∀ y ∈ x :: xs, Parted part render close y) :
    enclosed? part close (l.opening depth ++ (render x ++ (xs.flatMap (l.between depth ++ render ·) ++
      (l.closing depth ++ .scalar close :: rest)))) = some (x :: xs, rest) := by
  obtain ⟨y, more, first, notSpace, notClosing⟩ := (parted x List.mem_cons_self).opens
  obtain ⟨blanks, between, _⟩ := spaced.between depth
  have some : ∀ z ∈ xs, l.between depth ++ render z ≠ [] := by
    intro z _
    rw [between]
    exact List.cons_ne_nil _ _
  have room := length_le_flatMap some
  rw [enclosed?, skip_append (spaced.opening depth), first, List.cons_append]
  simp only [skip_cons notSpace, if_neg notClosing]
  rw [← List.cons_append, ← first]
  refine seriesWithin_of_parted spaced isClosing depth rest parted (spaced.opening depth) ?_
  simp only [List.length_append, List.length_cons]
  omega

end

/-! ## Values -/

/-- no text in a value has a high half directly in front of a low half -/
inductive Unpaired : Json → Prop
  | null : Unpaired null
  | bool (b : Bool) : Unpaired (bool b)
  | int (n : Int) : Unpaired (int n)
  | text {t : Text} (unpaired : t.Unpaired) : Unpaired (text t)
  | array {items : List Json} (unpaired : ∀ v ∈ items, Unpaired v) : Unpaired (array items)
  | object {members : List (Text × Json)} (names : ∀ m ∈ members, m.1.Unpaired)
      (values : ∀ m ∈ members, Unpaired m.2) : Unpaired (object members)

mutual

/-- the texts in a value, and the names of the members in it -/
def texts : Json → List Text
  | null | bool _ | int _ => []
  | text t => [t]
  | array items => textsOfItems items
  | object members => textsOfMembers members

def textsOfItems : List Json → List Text
  | [] => []
  | v :: items => v.texts ++ textsOfItems items

def textsOfMembers : List (Text × Json) → List Text
  | [] => []
  | (name, v) :: members => name :: (v.texts ++ textsOfMembers members)

end

mutual

theorem unpaired_of_texts : ∀ {v : Json}, (∀ t ∈ v.texts, t.Unpaired) → v.Unpaired
  | null, _ => .null
  | bool b, _ => .bool b
  | int n, _ => .int n
  | text _, h => .text (h _ List.mem_cons_self)
  | array _, h => .array (unpaired_of_textsOfItems h)
  | object _, h => .object (unpaired_of_textsOfMembers h).1 (unpaired_of_textsOfMembers h).2

theorem unpaired_of_textsOfItems : ∀ {items : List Json}, (∀ t ∈ textsOfItems items, t.Unpaired) →
    ∀ v ∈ items, v.Unpaired
  | [], _ => fun _ mem => nomatch mem
  | _ :: _, h =>
    have parts := List.forall_mem_append.mp h
    List.forall_mem_cons.mpr ⟨unpaired_of_texts parts.1, unpaired_of_textsOfItems parts.2⟩

theorem unpaired_of_textsOfMembers : ∀ {members : List (Text × Json)}, (∀ t ∈ textsOfMembers members, t.Unpaired) →
    (∀ m ∈ members, m.1.Unpaired) ∧ ∀ m ∈ members, m.2.Unpaired
  | [], _ => ⟨nofun, nofun⟩
  | (_, _) :: _, h =>
    have first := List.forall_mem_cons.mp h
    have parts := List.forall_mem_append.mp first.2
    have further := unpaired_of_textsOfMembers parts.2
    ⟨List.forall_mem_cons.mpr ⟨first.1, further.1⟩,
      List.forall_mem_cons.mpr ⟨unpaired_of_texts parts.1, further.2⟩⟩

end

theorem printItems_eq (l : Layout) (depth : Nat) (items : List Json) :
    printItems l depth items = items.flatMap (l.between depth ++ printAt l (depth + 1) ·) := by
  induction items with
  | nil => rfl
  | cons item items ih => rw [printItems, ih, List.flatMap_cons]

/-- a member of an object, with its value at a depth -/
def printMember (l : Layout) (depth : Nat) (m : Text × Json) : Text :=
  string m.1 ++ (Text.ofString ": " ++ printAt l depth m.2)

theorem printMembers_eq (l : Layout) (depth : Nat) (members : List (Text × Json)) :
    printMembers l depth members = members.flatMap (l.between depth ++ printMember l (depth + 1) ·) := by
  induction members with
  | nil => rfl
  | cons m members ih =>
    rw [printMembers, ih, List.flatMap_cons, printMember]
    simp only [List.append_assoc]

theorem printAt_array (l : Layout) (depth : Nat) (item : Json) (items : List Json) (rest : Text) :
    printAt l depth (array (item :: items)) ++ rest =
      .scalar '[' :: (l.opening depth ++ (printAt l (depth + 1) item ++
        (items.flatMap (l.between depth ++ printAt l (depth + 1) ·) ++
          (l.closing depth ++ .scalar ']' :: rest)))) := by
  rw [printAt, printItems_eq]
  simp [Text.ofString]

theorem printAt_object (l : Layout) (depth : Nat) (m : Text × Json) (members : List (Text × Json)) (rest : Text) :
    printAt l depth (object (m :: members)) ++ rest =
      .scalar '{' :: (l.opening depth ++ (printMember l (depth + 1) m ++
        (members.flatMap (l.between depth ++ printMember l (depth + 1) ·) ++
          (l.closing depth ++ .scalar '}' :: rest)))) := by
  rw [printAt, printMembers_eq]
  simp [Text.ofString, printMember]

theorem exists_cons_ofInt (n : Int) : ∃ x rest, Text.ofInt n = x :: rest ∧ (x = '-' ∨ isDigit x = true) := by
  cases n with
  | ofNat n =>
    obtain ⟨x, rest, split, digit⟩ := exists_cons_ofNat n
    exact ⟨x, rest, split, .inr digit⟩
  | negSucc n => exact ⟨_, _, rfl, .inl rfl⟩

/-- a value begins neither with a blank nor with a closing sign -/
theorem printAt_opens (l : Layout) (depth : Nat) (v : Json) {close : Char} (isClosing : close = ']' ∨ close = '}') :
    Opens close (printAt l depth v) := by
  have opens : ∀ {x : CodePoint} (rest : Text), isSpace x = false ∧ x ≠ ']' ∧ x ≠ '}' → Opens close (x :: rest) := by
    rintro x rest ⟨notSpace, notBracket, notBrace⟩
    refine ⟨x, rest, rfl, notSpace, ?_⟩
    rcases isClosing with rfl | rfl
    · exact notBracket
    · exact notBrace
  cases v with
  | null => exact opens _ (by decide)
  | bool b => cases b <;> exact opens _ (by decide)
  | int n =>
    obtain ⟨x, rest, split, sign | digit⟩ := exists_cons_ofInt n
    · rw [printAt, split, sign]
      exact opens rest (by decide)
    · rw [printAt, split]
      refine opens rest ⟨Bool.eq_false_iff.mpr fun space => ?_, ?_, ?_⟩
      · exact Bool.false_ne_true ((not_isDigit_of_isSpace space).symm.trans digit)
      · rintro rfl
        exact absurd digit (by decide)
      · rintro rfl
        exact absurd digit (by decide)
  | text t => exact opens _ (by decide)
  | array items => cases items <;> exact opens _ (by decide)
  | object members => cases members <;> exact opens _ (by decide)

theorem length_le_of_mem {α : Type} {f : α → Text} {xs : List α} {x : α} (mem : x ∈ xs) :
    (f x).length ≤ (xs.flatMap f).length :=
  (List.sublist_flatten_of_mem (List.mem_map_of_mem mem)).length_le

/-- a part is shorter than what it is a part of -/
theorem length_lt_of_mem {α : Type} (render : α → Text) {x y : α} {xs : List α} (mem : y ∈ x :: xs) (sign : CodePoint)
    (opening sep closing : Text) :
    (render y).length < (sign :: (opening ++ (render x ++ (xs.flatMap (sep ++ render ·) ++ closing)))).length := by
  simp only [List.length_cons, List.length_append]
  rcases List.mem_cons.mp mem with rfl | mem
  · omega
  · have part := length_le_of_mem (f := (sep ++ render ·)) mem
    simp only [List.length_append] at part
    omega

section
variable {l : Layout} (spaced : l.Spaced) {depth fuel : Nat} {rest : Text}

/-- a member is read if its value is -/
theorem member?_printMember {m : Text × Json} (name : m.1.Unpaired)
    (value : valueWithin fuel (printAt l depth m.2 ++ rest) = some (m.2, rest)) :
    member? (valueWithin fuel) (printMember l depth m ++ rest) = some (m, rest) := by
  have opens := printAt_opens l depth m.2 (.inl rfl)
  have skipped : skip (Text.ofString ": " ++ (printAt l depth m.2 ++ rest)) =
      .scalar ':' :: .scalar ' ' :: (printAt l depth m.2 ++ rest) := skip_cons (by decide) _
  have behind : skip (.scalar ' ' :: (printAt l depth m.2 ++ rest)) = printAt l depth m.2 ++ rest :=
    (skip_append (show ∀ x ∈ [CodePoint.scalar ' '], isSpace x = true by decide) _).trans (skip_of_opens opens rest)
  rw [printMember, List.append_assoc, List.append_assoc, member?, string?_string name, Option.bind_some]
  simp only [skipped, if_true, behind, value, Option.map_some]

theorem valueWithin_int (n : Int) (ends : ¬ rest.Begins isDigit) :
    valueWithin (fuel + 1) (printAt l depth (int n) ++ rest) = some (int n, rest) := by
  have read := integer?_ofInt n ends
  obtain ⟨x, more, split, sign⟩ := exists_cons_ofInt n
  have other : x ≠ '"' ∧ x ≠ '[' ∧ x ≠ '{' := by
    refine ⟨?_, ?_, ?_⟩ <;> (rintro rfl; exact absurd sign (by decide))
  rw [split, List.cons_append] at read
  rw [printAt, split, List.cons_append, valueWithin, if_neg other.1, if_neg other.2.1, if_neg other.2.2, read,
    Option.map_some, Option.some_or]

theorem valueWithin_text {t : Text} (unpaired : t.Unpaired) :
    valueWithin (fuel + 1) (printAt l depth (text t) ++ rest) = some (text t, rest) := by
  have read := string?_string unpaired rest
  rw [string, List.cons_append, List.cons_append] at read
  rw [printAt, string, List.cons_append, List.cons_append, valueWithin, if_pos rfl, read, Option.map_some]

include spaced

/-- an array is read if its items are -/
theorem valueWithin_array {items : List Json}
    (reads : ∀ v ∈ items, ∀ rest : Text, ¬ rest.Begins isDigit →
      valueWithin fuel (printAt l (depth + 1) v ++ rest) = some (v, rest)) :
    valueWithin (fuel + 1) (printAt l depth (array items) ++ rest) = some (array items, rest) := by
  cases items with
  | nil => rfl
  | cons item items =>
    have bracket : IsClosing ']' := ⟨by decide, by decide, by decide⟩
    have parted : ∀ v ∈ item :: items, Parted (valueWithin fuel) (printAt l (depth + 1)) ']' v :=
      fun v mem => ⟨printAt_opens l _ v (.inl rfl), fun ends => reads v mem _ ends⟩
    rw [printAt_array, valueWithin, if_neg (by decide), if_pos rfl,
      enclosed?_of_parted spaced bracket depth rest parted, Option.map_some]

/-- an object is read if the values of its members are -/
theorem valueWithin_object {members : List (Text × Json)} (names : ∀ m ∈ members, m.1.Unpaired)
    (reads : ∀ m ∈ members, ∀ rest : Text, ¬ rest.Begins isDigit →
      valueWithin fuel (printAt l (depth + 1) m.2 ++ rest) = some (m.2, rest)) :
    valueWithin (fuel + 1) (printAt l depth (object members) ++ rest) = some (object members, rest) := by
  cases members with
  | nil => rfl
  | cons m members =>
    have brace : IsClosing '}' := ⟨by decide, by decide, by decide⟩
    have parted : ∀ m' ∈ m :: members, Parted (member? (valueWithin fuel)) (printMember l (depth + 1)) '}' m' :=
      fun m' mem => ⟨⟨_, _, rfl, by decide, by decide⟩,
        fun ends => member?_printMember (names m' mem) (reads m' mem _ ends)⟩
    rw [printAt_object, valueWithin, if_neg (by decide), if_neg (by decide), if_pos rfl,
      enclosed?_of_parted spaced brace depth rest parted, Option.map_some]

/-- a value is read, whatever stands behind it that is no digit -/
theorem valueWithin_printAt {v : Json} (h : v.Unpaired) (enough : (printAt l depth v).length ≤ fuel)
    (ends : ¬ rest.Begins isDigit) : valueWithin fuel (printAt l depth v ++ rest) = some (v, rest) := by
  induction h generalizing depth fuel rest with
  | null =>
    obtain ⟨fuel, rfl⟩ := Nat.exists_eq_succ_of_ne_zero (Nat.ne_zero_of_lt enough)
    rfl
  | bool b =>
    cases b <;> obtain ⟨fuel, rfl⟩ := Nat.exists_eq_succ_of_ne_zero (Nat.ne_zero_of_lt enough) <;> rfl
  | int n =>
    obtain ⟨x, more, split, _⟩ := exists_cons_ofInt n
    rw [printAt, split] at enough
    obtain ⟨fuel, rfl⟩ := Nat.exists_eq_succ_of_ne_zero (Nat.ne_zero_of_lt enough)
    exact valueWithin_int n ends
  | text unpaired =>
    obtain ⟨fuel, rfl⟩ := Nat.exists_eq_succ_of_ne_zero (Nat.ne_zero_of_lt enough)
    exact valueWithin_text unpaired
  | @array items _ ih =>
    cases items with
    | nil =>
      obtain ⟨fuel, rfl⟩ := Nat.exists_eq_succ_of_ne_zero (Nat.ne_zero_of_lt enough)
      rfl
    | cons item items =>
      rw [← List.append_nil (printAt l depth _), printAt_array] at enough
      obtain ⟨fuel, rfl⟩ := Nat.exists_eq_succ_of_ne_zero (Nat.ne_zero_of_lt enough)
      refine valueWithin_array spaced fun v mem rest ends => ih v mem (Nat.le_of_lt_succ ?_) ends
      exact Nat.lt_of_lt_of_le (length_lt_of_mem (printAt l (depth + 1)) mem _ _ _ _) enough
  | @object members names _ ih =>
    cases members with
    | nil =>
      obtain ⟨fuel, rfl⟩ := Nat.exists_eq_succ_of_ne_zero (Nat.ne_zero_of_lt enough)
      rfl
    | cons m members =>
      rw [← List.append_nil (printAt l depth _), printAt_object] at enough
      obtain ⟨fuel, rfl⟩ := Nat.exists_eq_succ_of_ne_zero (Nat.ne_zero_of_lt enough)
      refine valueWithin_object spaced names fun m' mem rest ends => ih m' mem ?_ ends
      have shorter := Nat.lt_of_lt_of_le (length_lt_of_mem (printMember l (depth + 1)) mem _ _ _ _) enough
      rw [printMember, List.length_append, List.length_append] at shorter
      omega

/-- **A value is read back, in any layout.** -/
theorem decode?_printAt {v : Json} (h : v.Unpaired) (depth : Nat) : decode? (printAt l depth v) = some v := by
  have read : valueWithin (printAt l depth v).length (printAt l depth v ++ []) = some (v, []) :=
    valueWithin_printAt spaced h (Nat.le_refl _) Text.not_begins_nil
  have skipped := skip_of_opens (printAt_opens l depth v (.inl rfl)) []
  rw [List.append_nil] at read skipped
  rw [decode?, skipped, read]
  rfl

theorem eq_of_printAt {v w : Json} (hv : v.Unpaired) (hw : w.Unpaired) {depth : Nat}
    (same : printAt l depth v = printAt l depth w) : v = w := by
  have read := decode?_printAt spaced hv depth
  rw [same, decode?_printAt spaced hw depth] at read
  exact (Option.some.inj read).symm

end

end Json

end Typings
