import Typings.Proofs.Text.Spelling
import Typings.Proofs.Token.Reading
import Typings.Text.Quoted
/-!
# What is quoted is decoded

Every text can be written between quotes, and is the value of what is written.  Each code point gives a
piece: itself, a backslash and a sign, or a backslash and its number in hexadecimal digits.

* `Literal.hexNumber_hexDigits`   the digits of a number are read as the number;
* `Quoted.Piece`                  what a code point is written as;
* `Quoted.Piece.spelling`         it is a piece of a literal that stands for the code point;
* `Quoted.encode_matches`         the quoted text is a string literal;
* `Literal.decode_encode`         its value is the text.
-/

namespace Typings

theorem CodePoint.toNat_lt (x : CodePoint) : x.toNat < 0x110000 := by
  cases x with
  | scalar c => exact Utf8.toNat_lt c
  | surrogate n =>
    have small := n.isLt
    show 0xD800 + n.val < _
    omega

/-! ## Hexadecimal digits -/

namespace Literal
open Quoted (hexDigit hexDigits)

theorem hexDigit_spec : ∀ d < 16, HexDigit (hexDigit d) d := by decide

theorem length_hexDigits (count n : Nat) : (hexDigits count n).length = count := by
  induction count generalizing n with
  | zero => rfl
  | succ count ih => rw [hexDigits, List.length_append, ih, List.length_singleton]

/-- the digits of a number have values that make it up -/
theorem hexDigits_spelled (count n : Nat) : ∃ values, List.Forall₂ HexDigit (hexDigits count n) values ∧
    (n < 16 ^ count → Nat.ofDigits 16 values.reverse = n) := by
  induction count generalizing n with
  | zero =>
    refine ⟨[], .nil, fun small => ?_⟩
    rw [Nat.pow_zero] at small
    show 0 = n
    omega
  | succ count ih =>
    obtain ⟨values, digits, number⟩ := ih (n / 16)
    have last := hexDigit_spec (n % 16) (Nat.mod_lt _ (by decide))
    refine ⟨values ++ [n % 16], List.rel_append digits (.cons last .nil), fun small => ?_⟩
    have front : n / 16 < 16 ^ count := by
      rw [Nat.pow_succ] at small
      omega
    rw [List.reverse_append, List.reverse_singleton, List.singleton_append, Nat.ofDigits_cons, number front]
    exact Nat.mod_add_div n 16

theorem isHexDigit_hexDigits (count n : Nat) : ∀ x ∈ hexDigits count n, x.isHexDigit = true :=
  let ⟨_, digits, _⟩ := hexDigits_spelled count n
  isHexDigit_of_forall digits

/-- the digits of a number are read as the number -/
theorem hexNumber_hexDigits {count n : Nat} (small : n < 16 ^ count) :
    hexNumber (hexDigits count n) = n := by
  obtain ⟨values, digits, number⟩ := hexDigits_spelled count n
  rw [hexNumber_eq digits, number small]

end Literal

/-! ## The pieces -/

namespace Quoted

/-- what a code point is written as between quotes -/
inductive Piece (quote : Char) (x : CodePoint) : Text → Prop
  | plain (inner : Inner x) (quote_ne : x ≠ quote) (notBackslash : x ≠ '\\') : Piece quote x [x]
  | sign {c v : Char} (value : x = .scalar v) (stands : Literal.simple? c = some v) :
      Piece quote x [.scalar '\\', .scalar c]
  | number {letter : Char} {count : Nat}
      (stands : (letter, count) ∈ letters) (small : x.toNat < 16 ^ count) :
      Piece quote x (.scalar '\\' :: .scalar letter :: hexDigits count x.toNat)

theorem inner_of_isPrintable {x : CodePoint} (h : x.isPrintable = true) : Inner x where
  scalar := by
    cases x with
    | scalar => rfl
    | surrogate n =>
      have small := n.isLt
      have gap : ((0xD7FC, 0xF8FF) : Nat × Nat) ∈ Printable.gaps := by decide
      have inside : (Printable.gaps.any fun g =>
          g.1 ≤ (CodePoint.surrogate n).toNat && (CodePoint.surrogate n).toNat ≤ g.2) = true := by
        refine List.any_eq_true.mpr ⟨_, gap, ?_⟩
        show (decide (0xD7FC ≤ 0xD800 + n.val) && decide (0xD800 + n.val ≤ 0xF8FF)) = true
        simp only [Bool.and_eq_true, decide_eq_true_eq]
        omega
      rw [CodePoint.isPrintable, inside] at h
      cases h
  notNul := by
    rintro rfl
    exact absurd h (by decide)
  notReturn := by
    rintro rfl
    exact absurd h (by decide)
  notLine := by
    rintro rfl
    exact absurd h (by decide)

theorem escape_piece {quote : Char} (isQuote : quote = '"' ∨ quote = '\'') (x : CodePoint) :
    Piece quote x (escape quote x) := by
  unfold escape
  split
  · rename_i e
    subst e
    refine .sign rfl ?_
    rcases isQuote with rfl | rfl <;> rfl
  split
  · rename_i e
    exact .sign e rfl
  split
  · rename_i e
    exact .sign e rfl
  split
  · rename_i e
    exact .sign e rfl
  split
  · rename_i e
    exact .sign e rfl
  split
  · exact .plain (inner_of_isPrintable ‹_›) ‹_› ‹_›
  · have small := x.toNat_lt
    unfold escapeNumber
    split
    · exact .number (List.mem_cons_self) ‹_›
    split
    · exact .number (by decide) ‹_›
    · exact .number (by decide) (by omega)

/-- a sign behind a backslash that is decoded is one of the signs -/
theorem mem_signs {c v : Char} (h : Literal.simple? c = some v) : (c, v) ∈ Literal.signs := by
  by_contra other
  have noSign : ∀ p ∈ Literal.signs, p.1 ≠ c := by
    rintro ⟨_, w⟩ mem rfl
    rw [(Literal.signs_inner _ mem).2] at h
    cases h
    exact other mem
  rw [Literal.simple?_eq_none noSign] at h
  cases h

/-- what a code point is written as stands for it -/
theorem Piece.spelling {quote : Char} {x : CodePoint} {piece : Text} (h : Piece quote x piece) (eol : CodePoint) :
    Literal.Spelling quote eol piece [x] := by
  cases h with
  | plain inner quote_ne notBackslash => exact .plain inner quote_ne notBackslash
  | sign value stands =>
    subst value
    exact .sign (mem_signs stands)
  | number stands small =>
    obtain ⟨values, digits, number⟩ := Literal.hexDigits_spelled _ x.toNat
    exact .number stands digits (Literal.length_hexDigits _ _) (number small).symm

theorem quoteFor_isQuote (t : Text) : quoteFor t = '"' ∨ quoteFor t = '\'' := by
  unfold quoteFor
  split
  · exact .inl rfl
  · exact .inr rfl

/-- the code points of a text with what they are written as -/
def pieces (quote : Char) (t : Text) : List (Text × Text) := t.map fun x => (escape quote x, [x])

theorem pieces_spelled {quote : Char} (isQuote : quote = '"' ∨ quote = '\'') (t : Text) :
    Literal.Spelled quote '\r' (pieces quote t) :=
  List.forall_mem_map.mpr fun x _ => (escape_piece isQuote x).spelling _

/-- a quoted text is its pieces between quotes -/
theorem encode_eq (t : Text) :
    encode t = .scalar (quoteFor t) :: ((pieces (quoteFor t) t).flatMap Prod.fst ++ [.scalar (quoteFor t)]) := by
  rw [pieces, List.flatMap_map]
  rfl

/-- the quoted text is a string literal -/
theorem encode_matches (t rest : Text) : Terminal.STRING.Matches (encode t) rest := by
  have isQuote := quoteFor_isQuote t
  rw [encode_eq]
  exact Literal.matches_spelled isQuote (by decide) (pieces_spelled isQuote t) rest

end Quoted

/-- **The value of quoted text is the text.** -/
theorem Literal.decode_encode (t : Text) : decode (Quoted.encode t) = .ok t := by
  have isQuote := Quoted.quoteFor_isQuote t
  rw [Quoted.encode_eq, decode_spelled isQuote (Quoted.pieces_spelled isQuote t), Quoted.pieces,
    List.flatMap_map]
  exact congrArg Except.ok (List.flatMap_singleton' t)

end Typings
