import Typings.Proofs.Token.Reading
/-!
# Where no token begins

If no class of tokens is found at the front of a text, no token is there by any reading of it.  So the text
begins with no part of a name, no digit and no punctuation mark.

* `Text.Unreadable`                  neither a token nor ignored text is at the front of a text;
* `Text.unreadable_of_readAny?`      what the search for any token tells;
* `Text.Unreadable.first`            what such a text does not begin with.
-/

namespace Typings

/-- neither a token of any class nor a piece of ignored text is at the front of the text -/
structure Text.Unreadable (t : Text) : Prop where
  noToken : ∀ (kind : Terminal) (piece rest : Text), kind.Matches piece rest → piece ++ rest ≠ t
  notIgnored : ∀ piece rest : Text, Ignorable piece rest → piece ++ rest ≠ t

namespace Token
variable {t : Text}

/-- every pattern is tried in the search for any token -/
theorem patterns_of_readAny? (h : readAny? t = none) : Pattern.name t = none ∧ Pattern.quoted t = none ∧
    Pattern.numeral t = none ∧ spelled (fun _ => true) t = none := by
  rw [readAny?, read?, Option.or_eq_none_iff, classed] at h
  simpa only [Option.or_eq_none_iff, if_true, Option.map_eq_none_iff, and_assoc] using h

/-- the search finds the spelling of every punctuation mark -/
theorem spelled_ne_none {kind : Terminal} {s : String} (spelling : kind.spelling? = some s)
    (mark : kind.isKeyword = false) (rest : Text) : spelled (fun _ => true) (s ++ rest) ≠ none := by
  intro none
  have mem := Terminal.mem_spelled kind kind.mem_all (by rw [spelling]; exact Option.some_ne_none _)
  have here := List.findSome?_eq_none_iff.mp none kind mem
  rw [mark, spelling, Option.bind_some, Pattern.exactly, Pattern.after?_append] at here
  cases here

/-- where the search finds nothing there is no token -/
theorem ne_of_readAny? (h : readAny? t = none) {kind : Terminal} {piece rest : Text}
    (isToken : kind.Matches piece rest) : piece ++ rest ≠ t := by
  rintro rfl
  obtain ⟨noName, noQuote, noNumeral, noSpelling⟩ := patterns_of_readAny? h
  have numeral : ¬ Terminal.Matches .NUMERAL piece rest := fun found => by
    rw [Pattern.numeral_append found] at noNumeral
    cases noNumeral
  cases isToken with
  | name isName whole =>
    rw [Pattern.name_append isName whole] at noName
    cases noName
  | string isQuote quoted =>
    rw [List.cons_append, List.append_assoc, List.singleton_append,
      Pattern.quoted_append rest isQuote quoted] at noQuote
    cases noQuote
  | hexadecimal isX some all whole => exact numeral (.hexadecimal isX some all whole)
  | decimal isDecimal notHex => exact numeral (.decimal isDecimal notHex)
  | negative isDecimal => exact numeral (.negative isDecimal)
  | @spelled _ s _ spelling =>
    cases word : kind.isKeyword with
    | false => exact spelled_ne_none spelling word rest noSpelling
    | true =>
      -- a keyword begins like a name
      obtain ⟨x, more, e, _, _, _, _, _, _, start⟩ := Terminal.spelling_first spelling
      rw [e, List.cons_append, Pattern.name, start, word] at noName
      cases noName

end Token

namespace Text

/-- where no token is found behind the ignored text, none is there, and no ignored text either -/
theorem unreadable_of_readAny? {t : Text} (h : Token.readAny? t = none) (ends : Pattern.ignored t = none) :
    t.Unreadable where
  noToken _ _ _ isToken := Token.ne_of_readAny? h isToken
  notIgnored piece rest isIgnored whole := by
    rw [← whole, Pattern.ignored_of_ignorable isIgnored] at ends
    cases ends

/-- the punctuation marks of one code point -/
def marks : Text := "?\x7b\x7d()[]<>;,:=.*"

theorem spelling_of_mark : ∀ x ∈ marks, ∃ kind ∈ Terminal.all, ∃ s ∈ kind.spelling?, Text.ofString s = [x] := by
  decide

end Text

/-- a part of a name can begin a name, or it is a digit -/
theorem CodePoint.cases_of_isNamePart {x : CodePoint} (h : x.isNamePart = true) :
    x.isNameStart = true ∨ x.isDecimal = true := by
  cases x with
  | surrogate => cases h
  | scalar c =>
    simp only [isNamePart, isNameStart, satisfies_scalar, Char.isAlphanum, Bool.or_eq_true] at h ⊢
    rcases h with ((letter | digit) | underscore) | dollar
    · exact .inl (.inl (.inl letter))
    · refine .inr (List.any_eq_true.mpr ⟨0x30, by decide, ?_⟩)
      simp only [Char.isDigit, Bool.and_eq_true, decide_eq_true_iff, UInt32.le_iff_toNat_le] at digit
      rw [Bool.and_eq_true, decide_eq_true_iff, decide_eq_true_iff]
      exact ⟨digit.1, Nat.lt_succ_of_le digit.2⟩
    · exact .inl (.inl (.inr underscore))
    · exact .inl (.inr dollar)

/-- a text that no token begins does not begin with a part of a name, a digit or a punctuation mark -/
theorem Text.Unreadable.first {x : CodePoint} {t : Text} (h : Unreadable (x :: t)) :
    x.isNamePart = false ∧ x.isDecimal = false ∧ x ∉ marks := by
  have noStart : x.isNameStart = false := by
    refine Bool.eq_false_iff.mpr fun start => ?_
    have found : Pattern.name (x :: t) = some (x :: t.takeWhile CodePoint.isNamePart, _) := if_pos start
    exact h.noToken _ _ _ (Pattern.matches_of_name found) (Pattern.append_of_name found)
  have noDigit : x.isDecimal = false := by
    refine Bool.eq_false_iff.mpr fun digit => ?_
    cases found : Pattern.numeral (x :: t) with
    | some p => exact h.noToken _ _ _ (Pattern.matches_of_numeral found) (Pattern.append_of_numeral found)
    | none =>
      -- without a minus sign a numeral is looked for at the digit
      have noMinus : x ≠ '-' := CodePoint.isDecimal_ne digit (by decide)
      rw [Pattern.numeral, Option.or_eq_none_iff, Pattern.signed.eq_def] at found
      obtain ⟨_, noDecimals⟩ := found
      split at noDecimals
      · rename_i minus
        exact noMinus (List.cons.inj minus).1
      · exact Pattern.not_begins_of_many1 (Option.map_eq_none_iff.mp noDecimals) (Text.begins_cons.mpr digit)
  refine ⟨Bool.eq_false_iff.mpr fun part => ?_, noDigit, fun mark => ?_⟩
  · rcases CodePoint.cases_of_isNamePart part with start | digit
    · exact Bool.false_ne_true (noStart.symm.trans start)
    · exact Bool.false_ne_true (noDigit.symm.trans digit)
  · obtain ⟨kind, _, s, spelling, e⟩ := spelling_of_mark x mark
    exact h.noToken kind s t (.spelled spelling) (by rw [e]; rfl)

end Typings
