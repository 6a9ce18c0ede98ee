import Mathlib.Data.List.Forall2
import Mathlib.Data.List.TakeWhile
import Mathlib.Data.Nat.Digits.Defs
import Mathlib.Tactic.Ring
import Typings.Proofs.Text.Utf8
import Typings.Proofs.Token.Matching
import Typings.Text.Literal
/-!
# What is written in a literal

Between the quotes of a literal stand pieces: a code point that stands for itself, or a backslash with what
goes with it.  The pattern for a literal and its decoder look at the text each in its own way; both find the
pieces, whatever stands beside them.

* `Literal.Spelling`           a piece of a literal, and what it stands for;
* `Literal.Spelling.shape`     a piece is one code point, or begins with a backslash;
* `Literal.unescape_spelling`  a backslash with what goes with it is decoded to what it stands for;
* `Literal.quoted_spelled`     pieces between quotes are a literal;
* `Literal.decode_spelled`     its value is what the pieces stand for, one behind the other.
-/

namespace Typings

theorem CodePoint.ofNat?_toNat (x : CodePoint) : CodePoint.ofNat? x.toNat = some x := by
  cases x with
  | scalar c => exact ofNat?_scalar c
  | surrogate n =>
    have small := n.isLt
    have noScalar : ¬ (0xD800 + n.val).isValidChar := by
      unfold Nat.isValidChar
      omega
    have inside : 0xD800 + n.val - 0xD800 < 2048 ∧ 0xD800 ≤ 0xD800 + n.val := by omega
    show ofNat? (0xD800 + n.val) = _
    unfold ofNat?
    rw [dif_neg noScalar, dif_pos inside]
    exact congrArg (fun n => some (surrogate n)) (Fin.ext (Nat.add_sub_cancel_left 0xD800 n.val))

/-- a code point that can stand in a literal as it is written -/
structure Quoted.Inner (x : CodePoint) : Prop where
  scalar : x.isSurrogate = false
  notNul : x ≠ '\x00'
  notReturn : x ≠ '\r'
  notLine : x ≠ '\n'

/-- the letters for escapes by number, and how many digits come behind each -/
def Quoted.letters : List (Char × Nat) := [('x', 2), ('u', 4), ('U', 8)]

namespace Literal
open Quoted (Inner letters)

/-! ## The pieces -/

/-- the signs behind a backslash that stand for one code point -/
def signs : List (Char × Char) := [
  ('\\', '\\'), ('\'', '\''), ('"', '"'), ('a', '\x07'), ('b', '\x08'), ('f', '\x0c'), ('n', '\n'),
  ('r', '\r'), ('t', '\t'), ('v', '\x0b')]

/-- a hexadecimal digit with its value -/
def HexDigit (x : CodePoint) (n : Nat) : Prop :=
  n < 16 ∧ (x = .scalar n.digitChar ∨ x = .scalar n.digitChar.toUpper)

instance (x : CodePoint) (n : Nat) : Decidable (HexDigit x n) := inferInstanceAs (Decidable (_ ∧ _))

/-- a piece of a literal between two `quote`s, and what it stands for.  A backslash with the line end `eol`
stands for nothing, and with a code point that begins no escape it stands for both. -/
inductive Spelling (quote : Char) (eol : CodePoint) : Text → Text → Prop
  | plain {x : CodePoint} (inner : Inner x) (quote_ne : x ≠ quote) (notBackslash : x ≠ '\\') :
      Spelling quote eol [x] [x]
  | sign {c v : Char} (stands : (c, v) ∈ signs) : Spelling quote eol [.scalar '\\', .scalar c] [.scalar v]
  | octal {i j k : Nat} (first : i < 8) (second : j < 8) (third : k < 8) :
      Spelling quote eol
        [.scalar '\\', .scalar i.digitChar, .scalar j.digitChar, .scalar k.digitChar]
        [.scalar (Char.ofNat (64 * i + 8 * j + k))]
  | number {letter : Char} {count : Nat} {digits : Text} {values : List Nat} {x : CodePoint}
      (stands : (letter, count) ∈ letters) (hex : List.Forall₂ HexDigit digits values)
      (length : digits.length = count) (value : x.toNat = Nat.ofDigits 16 values.reverse) :
      Spelling quote eol (.scalar '\\' :: .scalar letter :: digits) [x]
  | continued : Spelling quote eol [.scalar '\\', eol] []
  | both {c : Char} (inner : Inner (.scalar c)) (noSign : ∀ p ∈ signs, p.1 ≠ c)
      (noDigit : ∀ i < 8, i.digitChar ≠ c) (noLetter : c ∉ ['x', 'u', 'U', 'N']) :
      Spelling quote eol [.scalar '\\', .scalar c] [.scalar '\\', .scalar c]

/-- pieces of a literal -/
def Spelled (quote : Char) (eol : CodePoint) (pieces : List (Text × Text)) : Prop :=
  ∀ p ∈ pieces, Spelling quote eol p.1 p.2

/-! ## Their shape -/

/-- a code point that stands for itself between quotes -/
structure Plain (quote : Char) (x : CodePoint) : Prop where
  inner : Inner x
  quote_ne : x ≠ quote
  notBackslash : x ≠ '\\'

theorem signs_inner : ∀ p ∈ signs, Inner (.scalar p.1) ∧ simple? p.1 = some p.2 := by
  have checked : ∀ p ∈ signs, (CodePoint.scalar p.1).isSurrogate = false ∧ CodePoint.scalar p.1 ≠ '\x00' ∧
      CodePoint.scalar p.1 ≠ '\r' ∧ CodePoint.scalar p.1 ≠ '\n' ∧ simple? p.1 = some p.2 := by
    decide
  intro p mem
  obtain ⟨scalar, notNul, notReturn, notLine, stands⟩ := checked p mem
  exact ⟨⟨scalar, notNul, notReturn, notLine⟩, stands⟩

theorem letters_inner : ∀ p ∈ letters, Inner (.scalar p.1) := by
  have checked : ∀ p ∈ letters, (CodePoint.scalar p.1).isSurrogate = false ∧ CodePoint.scalar p.1 ≠ '\x00' ∧
      CodePoint.scalar p.1 ≠ '\r' ∧ CodePoint.scalar p.1 ≠ '\n' := by
    decide
  intro p mem
  obtain ⟨scalar, notNul, notReturn, notLine⟩ := checked p mem
  exact ⟨scalar, notNul, notReturn, notLine⟩

section
variable {quote : Char} (isQuote : quote = '"' ∨ quote = '\'')
include isQuote

/-- digits stand for themselves between quotes -/
theorem plain_of_isHexDigit {x : CodePoint} (h : x.isHexDigit = true) : Plain quote x := by
  cases x with
  | surrogate => cases h
  | scalar c =>
    have inner : Inner (.scalar c) := by
      refine ⟨rfl, ?_, ?_, ?_⟩ <;> (rintro ⟨⟩; exact absurd h (by decide))
    refine ⟨inner, ?_, by rintro ⟨⟩; exact absurd h (by decide)⟩
    rintro ⟨⟩
    rcases isQuote with rfl | rfl <;> exact absurd h (by decide)

end

theorem HexDigit.spec {x : CodePoint} {n : Nat} (h : HexDigit x n) :
    x.isHexDigit = true ∧ hexValue x = n := by
  have checked : ∀ n < 16, ((CodePoint.scalar n.digitChar).isHexDigit = true ∧
        hexValue (.scalar n.digitChar) = n) ∧
      (CodePoint.scalar n.digitChar.toUpper).isHexDigit = true ∧
        hexValue (.scalar n.digitChar.toUpper) = n := by
    decide
  obtain ⟨small, rfl | rfl⟩ := h
  · exact (checked n small).1
  · exact (checked n small).2

theorem isHexDigit_of_forall {digits : Text} {values : List Nat} (h : List.Forall₂ HexDigit digits values) :
    ∀ x ∈ digits, x.isHexDigit = true := by
  induction h with
  | nil => exact fun _ h => nomatch h
  | cons here _ ih => exact List.forall_mem_cons.mpr ⟨here.spec.1, ih⟩

theorem octal_isHexDigit : ∀ i < 8, (CodePoint.scalar i.digitChar).isHexDigit = true := by decide

namespace Spelling
variable {quote : Char} {eol : CodePoint} {text value : Text}

/-- only a continued line depends on the line end -/
theorem continued_or (h : Spelling quote eol text value) :
    (text = [.scalar '\\', eol] ∧ value = []) ∨
      (∀ x ∈ text, Inner x) ∧ ∀ eol', Spelling quote eol' text value := by
  have backslash : Inner '\\' := ⟨rfl, by decide, by decide, by decide⟩
  have digit : ∀ x : CodePoint, x.isHexDigit = true → Inner x :=
    fun x h => (plain_of_isHexDigit (.inl rfl) h).inner
  cases h with
  | plain inner quote_ne notBackslash =>
    exact .inr ⟨List.forall_mem_singleton.mpr inner, fun _ => .plain inner quote_ne notBackslash⟩
  | sign stands =>
    exact .inr ⟨List.forall_mem_cons.mpr ⟨backslash, List.forall_mem_singleton.mpr (signs_inner _ stands).1⟩,
      fun _ => .sign stands⟩
  | octal first second third =>
    refine .inr ⟨?_, fun _ => .octal first second third⟩
    simp only [List.forall_mem_cons]
    exact ⟨backslash, digit _ (octal_isHexDigit _ first), digit _ (octal_isHexDigit _ second),
      digit _ (octal_isHexDigit _ third), fun _ h => nomatch h⟩
  | number stands hex length value =>
    refine .inr ⟨?_, fun _ => .number stands hex length value⟩
    exact List.forall_mem_cons.mpr ⟨backslash, List.forall_mem_cons.mpr ⟨letters_inner _ stands,
      fun x mem => digit x (isHexDigit_of_forall hex x mem)⟩⟩
  | continued => exact .inl ⟨rfl, rfl⟩
  | both inner noSign noDigit noLetter =>
    exact .inr ⟨List.forall_mem_cons.mpr ⟨backslash, List.forall_mem_singleton.mpr inner⟩,
      fun _ => .both inner noSign noDigit noLetter⟩

/-- a piece is one code point that stands for itself, or a backslash with a code point behind it and perhaps
some digits -/
theorem shape (isQuote : quote = '"' ∨ quote = '\'') (h : Spelling quote eol text value) :
    (∃ x, text = [x] ∧ Plain quote x) ∨
      ∃ y tail, text = .scalar '\\' :: y :: tail ∧ ∀ x ∈ tail, Plain quote x := by
  cases h with
  | plain inner quote_ne notBackslash => exact .inl ⟨_, rfl, inner, quote_ne, notBackslash⟩
  | sign | continued | both => exact .inr ⟨_, _, rfl, fun _ h => nomatch h⟩
  | octal first second third =>
    exact .inr ⟨_, _, rfl, List.forall_mem_cons.mpr
      ⟨plain_of_isHexDigit isQuote (octal_isHexDigit _ second),
        List.forall_mem_singleton.mpr (plain_of_isHexDigit isQuote (octal_isHexDigit _ third))⟩⟩
  | number stands hex =>
    exact .inr ⟨_, _, rfl, fun x mem => plain_of_isHexDigit isQuote (isHexDigit_of_forall hex x mem)⟩

theorem length_pos (isQuote : quote = '"' ∨ quote = '\'') (h : Spelling quote eol text value) :
    0 < text.length := by
  obtain ⟨x, rfl, _⟩ | ⟨y, tail, rfl, _⟩ := h.shape isQuote <;> exact Nat.succ_pos _

end Spelling

/-- no surrogate and no zero stands in a piece -/
theorem Spelled.scalars {quote : Char} {pieces : List (Text × Text)} (h : Spelled quote '\r' pieces) :
    ∀ x ∈ pieces.flatMap Prod.fst, x.isSurrogate = false ∧ x ≠ '\x00' := by
  intro x mem
  obtain ⟨p, hp, mem⟩ := List.mem_flatMap.mp mem
  obtain ⟨e, _⟩ | ⟨inner, _⟩ := (h p hp).continued_or
  · have both : ∀ x ∈ ([.scalar '\\', .scalar '\r'] : Text), x.isSurrogate = false ∧ x ≠ '\x00' := by
      decide
    exact both x (e ▸ mem)
  · exact ⟨(inner x mem).scalar, (inner x mem).notNul⟩

/-! ## Pieces between quotes are a literal -/

section
variable {quote : Char} {body : Text}

/-- code points that stand for themselves in front of quoted text -/
theorem quoted_plain {front : Text} (plain : ∀ x ∈ front, Plain quote x) (h : QuotedBody quote body) :
    QuotedBody quote (front ++ body) := by
  induction front with
  | nil => exact h
  | cons x front ih =>
    obtain ⟨here, further⟩ := List.forall_mem_cons.mp plain
    exact .plain here.quote_ne here.inner.notLine here.notBackslash (ih further)

variable {eol : CodePoint} (isQuote : quote = '"' ∨ quote = '\'')
include isQuote

/-- pieces with another line end than a line feed are quoted text -/
theorem quoted_spelled (noFeed : eol ≠ '\n') {pieces : List (Text × Text)} (h : Spelled quote eol pieces) :
    QuotedBody quote (pieces.flatMap Prod.fst) := by
  induction pieces with
  | nil => exact .nil
  | cons p pieces ih =>
    obtain ⟨here, further⟩ := List.forall_mem_cons.mp h
    have rest := ih further
    rw [List.flatMap_cons]
    obtain ⟨x, e, plain⟩ | ⟨y, tail, e, plain⟩ := here.shape isQuote
    · rw [e]
      exact quoted_plain (List.forall_mem_singleton.mpr plain) rest
    · have notLine : y ≠ '\n' := by
        obtain ⟨e', _⟩ | ⟨inner, _⟩ := here.continued_or
        · cases e.symm.trans e'
          exact noFeed
        · exact (inner y (e ▸ List.mem_cons_of_mem _ List.mem_cons_self)).notLine
      rw [e]
      exact .escaped notLine (quoted_plain plain rest)

/-- pieces between quotes are a string literal -/
theorem matches_spelled (noFeed : eol ≠ '\n') {pieces : List (Text × Text)} (h : Spelled quote eol pieces)
    (rest : Text) :
    Terminal.STRING.Matches (.scalar quote :: (pieces.flatMap Prod.fst ++ [.scalar quote])) rest :=
  .string isQuote (quoted_spelled isQuote noFeed h)

end

/-! ## What a piece is decoded to -/

/-- digits are read as the number that they spell -/
theorem hexNumber_eq {digits : Text} {values : List Nat} (h : List.Forall₂ HexDigit digits values) :
    hexNumber digits = Nat.ofDigits 16 values.reverse := by
  suffices ∀ n, digits.foldl (fun n x => 16 * n + hexValue x) n =
      Nat.ofDigits 16 values.reverse + 16 ^ digits.length * n from this 0
  induction h with
  | nil =>
    intro n
    simp
  | @cons x v digits values here further ih =>
    intro n
    have length := further.length_eq
    rw [List.foldl_cons, ih, here.spec.2, List.reverse_cons, Nat.ofDigits_append, Nat.ofDigits_singleton,
      List.length_reverse, ← length, List.length_cons]
    ring

/-- as many digits as are expected, for a code point -/
theorem hexEscape_eq {count : Nat} {digits : Text} {values : List Nat} {x : CodePoint}
    (hex : List.Forall₂ HexDigit digits values) (length : digits.length = count)
    (value : x.toNat = Nat.ofDigits 16 values.reverse) (short : EscapeFault) (rest : Text) :
    hexEscape count short (digits ++ rest) = .value [x] (count + 1) rest := by
  have taken : (digits ++ rest).take count = digits := List.take_left' length
  have dropped : (digits ++ rest).drop count = rest := List.drop_left' length
  have whole : digits.takeWhile CodePoint.isHexDigit = digits :=
    List.takeWhile_eq_self_iff.mpr (isHexDigit_of_forall hex)
  unfold hexEscape
  simp only [taken, dropped, whole, length, if_true, hexNumber_eq hex, ← value, CodePoint.ofNat?_toNat]

theorem simple?_eq_none {c : Char} (noSign : ∀ p ∈ signs, p.1 ≠ c) : simple? c = none := by
  unfold simple?
  split
  all_goals first | rfl | simp [signs] at noSign

theorem octalValue?_eq_none {c : Char} (noDigit : ∀ i < 8, i.digitChar ≠ c) :
    octalValue? (.scalar c) = none := by
  have digits : ∀ i < 8, i.digitChar = Char.ofNat (48 + i) := by decide
  refine if_neg fun ⟨low, high⟩ => ?_
  have low : 48 ≤ c.toNat := low
  have high : c.toNat ≤ 55 := high
  refine noDigit (c.toNat - 48) (by omega) ?_
  rw [digits _ (by omega), Nat.add_sub_cancel' low, Char.ofNat_toNat]

theorem unescape_letter (rest : Text) :
    unescape (.scalar 'x' :: rest) = hexEscape 2 .shortHex2 rest ∧
      unescape (.scalar 'u' :: rest) = hexEscape 4 .shortHex4 rest ∧
        unescape (.scalar 'U' :: rest) = hexEscape 8 .shortHex8 rest := by
  refine ⟨?_, ?_, ?_⟩ <;> rfl

/-- what goes with a backslash is decoded to what the piece stands for -/
theorem unescape_spelling {quote : Char} {text value : Text}
    (h : Spelling quote '\n' (.scalar '\\' :: text) value) (rest : Text) :
    ∃ width, unescape (text ++ rest) = .value value width rest := by
  generalize e : (.scalar '\\' :: text : Text) = whole at h
  cases h with
  | plain _ _ notBackslash => exact absurd (List.cons.inj e).1.symm notBackslash
  | sign stands =>
    cases e
    exact ⟨1, by rw [List.cons_append, List.nil_append, unescape, (signs_inner _ stands).2]⟩
  | @octal i j k first second third =>
    cases e
    have digits : ∀ i < 8, simple? i.digitChar = none ∧ octalValue? (.scalar i.digitChar) = some i := by
      decide
    refine ⟨3, ?_⟩
    simp only [List.cons_append, List.nil_append, unescape, octalEscape, digits i first, digits j second,
      digits k third]
  | @number letter count digits values x stands hex length number =>
    cases e
    have cases : letter = 'x' ∧ count = 2 ∨ letter = 'u' ∧ count = 4 ∨ letter = 'U' ∧ count = 8 := by
      simpa [letters] using stands
    obtain ⟨two, four, eight⟩ := unescape_letter (digits ++ rest)
    rcases cases with ⟨rfl, rfl⟩ | ⟨rfl, rfl⟩ | ⟨rfl, rfl⟩
    · exact ⟨_, two.trans (hexEscape_eq hex length number .shortHex2 rest)⟩
    · exact ⟨_, four.trans (hexEscape_eq hex length number .shortHex4 rest)⟩
    · exact ⟨_, eight.trans (hexEscape_eq hex length number .shortHex8 rest)⟩
  | continued =>
    cases e
    exact ⟨1, rfl⟩
  | @both c inner noSign noDigit noLetter =>
    cases e
    obtain ⟨x, u, capital, name⟩ : c ≠ 'x' ∧ c ≠ 'u' ∧ c ≠ 'U' ∧ c ≠ 'N' := by simpa using noLetter
    have notLine : c ≠ '\n' := fun e => inner.notLine (congrArg CodePoint.scalar e)
    refine ⟨if c.toNat < 128 then 1 else 15, ?_⟩
    simp only [List.cons_append, List.nil_append, unescape, simple?_eq_none noSign,
      octalValue?_eq_none noDigit, if_neg x, if_neg u, if_neg capital, if_neg name, if_neg notLine]

/-- a piece is decoded by itself, whatever comes behind it -/
theorem decodeWithin_spelling {quote : Char} {text value : Text} (h : Spelling quote '\n' text value)
    (line fuel offset : Nat) (rest : Text) :
    ∃ offset', decodeWithin line (fuel + 1) offset (text ++ rest) =
      (decodeWithin line fuel offset' rest).map (value ++ ·) := by
  cases text with
  | nil => cases h
  | cons y text =>
    by_cases backslash : y = '\\'
    · subst backslash
      obtain ⟨width, decoded⟩ := unescape_spelling h rest
      refine ⟨offset + 1 + width, ?_⟩
      rw [List.cons_append, decodeWithin, decoded]
    · cases h with
      | plain =>
        refine ⟨offset + width y, ?_⟩
        rw [List.cons_append, List.nil_append, decodeWithin]
        · rfl
        · exact backslash
      | sign | octal | number | continued | both => exact absurd rfl backslash

/-! ## What a literal is decoded to -/

/-- code points that stand for themselves do not close a literal -/
theorem closed?_plain {quote : Char} {front : Text} (plain : ∀ x ∈ front, Plain quote x) (rest : Text) :
    closed? quote (front ++ rest) = (closed? quote rest).map fun p => (front ++ p.1, p.2) := by
  induction front with
  | nil => simp
  | cons x front ih =>
    obtain ⟨here, further⟩ := List.forall_mem_cons.mp plain
    rw [List.cons_append, closed?, if_neg here.quote_ne, ih further, Option.map_map]
    · rfl
    · exact fun _ _ e _ => here.notBackslash e

section
variable {quote : Char} (isQuote : quote = '"' ∨ quote = '\'') {pieces : List (Text × Text)}
include isQuote

theorem decodeWithin_spelled (h : Spelled quote '\n' pieces) (line offset : Nat) {fuel : Nat}
    (enough : (pieces.flatMap Prod.fst).length ≤ fuel) :
    decodeWithin line fuel offset (pieces.flatMap Prod.fst) = .ok (pieces.flatMap Prod.snd) := by
  induction pieces generalizing fuel offset with
  | nil => cases fuel <;> rfl
  | cons p pieces ih =>
    obtain ⟨here, further⟩ := List.forall_mem_cons.mp h
    have some := here.length_pos isQuote
    rw [List.flatMap_cons, List.length_append] at enough
    obtain ⟨fuel, rfl⟩ := Nat.exists_eq_succ_of_ne_zero (show fuel ≠ 0 by omega)
    obtain ⟨offset', first⟩ := decodeWithin_spelling here line fuel offset (pieces.flatMap Prod.fst)
    rw [List.flatMap_cons, first, ih further offset' (by omega), List.flatMap_cons]
    rfl

/-- pieces are closed by the quote behind them -/
theorem closed?_spelled {eol : CodePoint} (h : Spelled quote eol pieces) (rest : Text) :
    closed? quote (pieces.flatMap Prod.fst ++ .scalar quote :: rest) =
      some (pieces.flatMap Prod.fst, rest) := by
  induction pieces with
  | nil =>
    have notBackslash : quote ≠ '\\' := by rcases isQuote with rfl | rfl <;> decide
    rw [List.flatMap_nil, List.nil_append, closed?, if_pos rfl]
    exact fun _ _ e _ => notBackslash (CodePoint.scalar.inj e)
  | cons p pieces ih =>
    obtain ⟨here, further⟩ := List.forall_mem_cons.mp h
    rw [List.flatMap_cons, List.append_assoc]
    obtain ⟨x, e, plain⟩ | ⟨y, tail, e, plain⟩ := here.shape isQuote
    · rw [e, closed?_plain (List.forall_mem_singleton.mpr plain), ih further]
      rfl
    · rw [e, List.cons_append, List.cons_append, closed?, closed?_plain plain, ih further]
      rfl

/-- only the line feeds behind backslashes are in the text -/
theorem bareLineEnd?_spelled {eol : CodePoint} (h : Spelled quote eol pieces) (line : Nat) :
    bareLineEnd? line (pieces.flatMap Prod.fst) = none := by
  have skip : ∀ (front : Text) (line : Nat) (rest : Text), (∀ x ∈ front, Plain quote x) →
      bareLineEnd? line (front ++ rest) = bareLineEnd? line rest := by
    intro front line rest plain
    induction front with
    | nil => rfl
    | cons x front ih =>
      obtain ⟨here, further⟩ := List.forall_mem_cons.mp plain
      rw [List.cons_append, bareLineEnd?, if_neg here.inner.notLine, ih further]
      exact fun _ _ e _ => here.notBackslash e
  induction pieces generalizing line with
  | nil => rfl
  | cons p pieces ih =>
    obtain ⟨here, further⟩ := List.forall_mem_cons.mp h
    rw [List.flatMap_cons]
    obtain ⟨x, e, plain⟩ | ⟨y, tail, e, plain⟩ := here.shape isQuote
    · rw [e, skip _ _ _ (List.forall_mem_singleton.mpr plain), ih further]
    · rw [e, List.cons_append, List.cons_append, bareLineEnd?, skip _ _ _ plain, ih further]

end

/-- a text without carriage returns has the line ends that it has -/
theorem unifyLineEnds_append {front : Text} (h : ∀ x ∈ front, x ≠ '\r') (rest : Text) :
    Text.unifyLineEnds (front ++ rest) = front ++ rest.unifyLineEnds := by
  induction front with
  | nil => rfl
  | cons x front ih =>
    obtain ⟨here, further⟩ := List.forall_mem_cons.mp h
    rw [List.cons_append, Text.unifyLineEnds, ih further]
    · rfl
    · exact fun _ e _ => here e
    · exact here

section
variable {quote : Char} (isQuote : quote = '"' ∨ quote = '\'') {pieces : List (Text × Text)}
include isQuote

/-- no piece begins with a line feed -/
theorem head?_spelled {eol : CodePoint} (h : Spelled quote eol pieces) {rest : Text}
    (ends : rest.head? ≠ some '\n') : (pieces.flatMap Prod.fst ++ rest).head? ≠ some '\n' := by
  cases pieces with
  | nil => exact ends
  | cons p pieces =>
    rw [List.flatMap_cons]
    obtain ⟨x, e, plain⟩ | ⟨y, tail, e, _⟩ := (h p List.mem_cons_self).shape isQuote
    · rw [e]
      exact fun e => plain.inner.notLine (Option.some.inj e)
    · rw [e]
      exact fun e => absurd (Option.some.inj e) (by decide)

/-- a backslash with a carriage return is one with a line feed once the line ends are unified -/
theorem unifyLineEnds_spelled (h : Spelled quote '\r' pieces) {rest : Text}
    (ends : rest.head? ≠ some '\n') :
    ∃ pieces', Spelled quote '\n' pieces' ∧ pieces'.flatMap Prod.snd = pieces.flatMap Prod.snd ∧
      Text.unifyLineEnds (pieces.flatMap Prod.fst ++ rest) =
        pieces'.flatMap Prod.fst ++ rest.unifyLineEnds := by
  induction pieces with
  | nil => exact ⟨[], List.forall_mem_nil _, rfl, rfl⟩
  | cons p pieces ih =>
    obtain ⟨here, further⟩ := List.forall_mem_cons.mp h
    obtain ⟨pieces', spelled, values, texts⟩ := ih further
    obtain ⟨text, value⟩ := p
    obtain ⟨rfl, rfl⟩ | ⟨inner, anyEnd⟩ := here.continued_or
    · refine ⟨([.scalar '\\', .scalar '\n'], []) :: pieces', List.forall_mem_cons.mpr ⟨.continued, spelled⟩,
        values, ?_⟩
      have noFeed := head?_spelled isQuote further ends
      rw [List.flatMap_cons, List.flatMap_cons, List.append_assoc, List.append_assoc, ← texts]
      generalize pieces.flatMap Prod.fst ++ rest = behind at noFeed
      show _ :: Text.unifyLineEnds (.scalar '\r' :: behind) = _
      rw [Text.unifyLineEnds]
      · rfl
      · rintro t rfl
        exact noFeed rfl
    · refine ⟨(text, value) :: pieces', List.forall_mem_cons.mpr ⟨anyEnd _, spelled⟩,
        by rw [List.flatMap_cons, List.flatMap_cons, values], ?_⟩
      rw [List.flatMap_cons, List.append_assoc,
        unifyLineEnds_append (fun x mem => (inner x mem).notReturn), texts, List.flatMap_cons,
        List.append_assoc]

/-- **The value of a literal is what its pieces stand for, one behind the other.** -/
theorem decode_spelled (h : Spelled quote '\r' pieces) :
    decode (.scalar quote :: (pieces.flatMap Prod.fst ++ [.scalar quote])) = .ok (pieces.flatMap Prod.snd) := by
  have quoteInner : Inner (.scalar quote) := by
    rcases isQuote with rfl | rfl <;> exact ⟨rfl, by decide, by decide, by decide⟩
  have scalars : ∀ x ∈ (.scalar quote :: (pieces.flatMap Prod.fst ++ [.scalar quote]) : Text),
      x.isSurrogate = false ∧ x ≠ '\x00' :=
    List.forall_mem_cons.mpr ⟨⟨quoteInner.scalar, quoteInner.notNul⟩, List.forall_mem_append.mpr
      ⟨h.scalars, List.forall_mem_singleton.mpr ⟨quoteInner.scalar, quoteInner.notNul⟩⟩⟩
  obtain ⟨bytes, encoded⟩ := Utf8.exists_encode fun x mem => (scalars x mem).1
  have noNul : List.contains (.scalar quote :: (pieces.flatMap Prod.fst ++ [.scalar quote]))
      (CodePoint.scalar '\x00') = false :=
    Bool.eq_false_iff.mpr fun contains => (scalars _ (List.contains_iff_mem.mp contains)).2 rfl
  have ends : ([.scalar quote] : Text).head? ≠ some '\n' := fun e => quoteInner.notLine (Option.some.inj e)
  obtain ⟨pieces', spelled, values, unified⟩ := unifyLineEnds_spelled isQuote h ends
  have unified : Text.unifyLineEnds (.scalar quote :: (pieces.flatMap Prod.fst ++ [.scalar quote])) =
      .scalar quote :: (pieces'.flatMap Prod.fst ++ [.scalar quote]) := by
    have front := unifyLineEnds_append (List.forall_mem_singleton.mpr quoteInner.notReturn)
    have last := front []
    rw [List.append_nil] at last
    rw [last] at unified
    exact (front _).trans (congrArg _ unified)
  have closed := closed?_spelled isQuote spelled []
  have noLine := bareLineEnd?_spelled isQuote spelled 1
  have value := decodeWithin_spelled isQuote spelled (lastLine 1 (pieces'.flatMap Prod.fst)) 0 (Nat.le_refl _)
  unfold decode
  simp only [encoded, noNul, unified]
  rw [if_neg Bool.false_ne_true, if_pos isQuote, decodeQuoted]
  simp only [closed, noLine, List.isEmpty_nil, if_true]
  rw [← values]
  exact value

end

end Literal

end Typings
