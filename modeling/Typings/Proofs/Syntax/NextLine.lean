import Typings.Proofs.Syntax.Scanning
import Typings.Proofs.Token.NextLine
/-!
# Scanning goes on in the next line

A text that scans may be followed by another one from the next line on: this one scans from the state
that the first one leaves, and all its tokens are further down.

* `Cursor.down`, `Token.down`    further down by some lines;
* `Parser.Scanned.down`           a text scans anywhere as it does at the start of a line;
* `Parser.Scanned.entered`         a keyword at its front may be looked for in another state;
* `Parser.Scanned.nextLine`        two texts that scan do so one after the other.
-/

namespace Typings

/-- the number of line feeds -/
def Text.lineFeeds (t : Text) : Nat := t.count (.scalar '\n')

namespace Cursor

/-- a place behind `n` more code points and `k` more lines -/
def down (n k : Nat) (c : Cursor) : Cursor := ⟨c.offset + n, c.line + k, c.column⟩

theorem step_down (n k : Nat) (c : Cursor) (x : CodePoint) :
    (c.down n k).step x = (c.step x).down n k := by
  unfold step down
  split
  · rw [Nat.add_right_comm, Nat.add_right_comm c.line]
  · rw [Nat.add_right_comm]

theorem advance_down (n k : Nat) (c : Cursor) (t : Text) :
    (c.down n k).advance t = (c.advance t).down n k := by
  induction t generalizing c with
  | nil => rfl
  | cons x t ih => rw [advance_cons, advance_cons, step_down, ih]

theorem line_advance (c : Cursor) (t : Text) : (c.advance t).line = c.line + t.lineFeeds := by
  unfold Text.lineFeeds
  induction t generalizing c with
  | nil => rfl
  | cons x t ih =>
    rw [advance_cons, ih, List.count_cons, step]
    by_cases line : x = '\n'
    · rw [if_pos line, if_pos (beq_iff_eq.mpr line)]
      exact Nat.add_right_comm ..
    · rw [if_neg line, if_neg (mt beq_iff_eq.mp line)]
      rfl

/-- behind a text and a line feed, a new line starts -/
theorem advance_line (t : Text) :
    start.advance (t ++ [.scalar '\n']) = start.down (t.length + 1) (t.lineFeeds + 1) := by
  have offset := offset_advance start t
  have line := line_advance start t
  rw [advance_append, advance_cons, advance_nil, step, if_pos rfl, offset, line]
  show Cursor.mk (0 + t.length + 1) (1 + t.lineFeeds + 1) 1 = Cursor.mk (0 + (t.length + 1)) (1 + (t.lineFeeds + 1)) 1
  rw [Nat.add_assoc, Nat.add_assoc 1]

end Cursor

/-- a token behind `n` more code points and `k` more lines -/
def Token.down (n k : Nat) (t : Token) : Token := { t with start := t.start.down n k }

namespace Parser

theorem goesOn_of_isKeyword {t : Terminal} (word : t.isKeyword = true) :
    t.goesOn = CodePoint.isNamePart := by
  cases t <;> first | rfl | cases word

/-- a text scans below as it does here -/
theorem Scanned.down {state : Nat} {place : Cursor} {text : Text} {tokens : List Token}
    {states : List Nat} (h : Scanned state place text tokens states) (n k : Nat) :
    Scanned state (place.down n k) text (tokens.map (Token.down n k)) states := by
  induction h with
  | nil ends => exact .nil ends
  | cons found _ ih =>
    have there := @Scanned.cons _ _ (Cursor.down n k _) _ _ _ _ _ _ found
      (by rw [Cursor.advance_down, Cursor.advance_down]; exact ih)
    rwa [Cursor.advance_down] at there

/-- a keyword at the front of a text may be looked for in another state, if no name goes on behind
it -/
theorem Scanned.entered {state next : Nat} {text : Text} {token : Token} {tokens : List Token}
    {states : List Nat} (h : Scanned state .start text (token :: tokens) (next :: states))
    {state' : Nat} (expects : Expects state' token.kind) (word : token.kind.isKeyword = true)
    (ends : ¬ Text.Begins CodePoint.isNamePart (text.drop (token.start.offset + token.text.length))) :
    Scanned state' .start text (token :: tokens) (next :: states) := by
  generalize place : Cursor.start = start at h ⊢
  cases h with
  | @cons _ _ _ _ piece rest kind _ _ found further =>
    obtain ⟨isToken, whole⟩ := Token.matches_of_read? found
    have behind : text.drop ((start.advance (Pattern.gap text).1).offset + piece.length) = rest := by
      rw [Cursor.offset_advance, ← place]
      show text.drop (0 + _ + _) = rest
      rw [Nat.zero_add, ← List.drop_drop]
      nth_rewrite 2 [← Pattern.gap_append text]
      rw [List.drop_left, ← whole, List.drop_left]
    rw [behind] at ends
    refine .cons ?_ further
    rw [← whole]
    refine Token.read?_of_matches isToken expects ?_ ?_
    · rintro rfl
      cases word
    · rw [goesOn_of_isKeyword word]
      exact ends

/-- two texts scan one after the other -/
theorem Scanned.nextLine {state : Nat} {place : Cursor} {s t : Text} {tokens more : List Token}
    {states after : List Nat} (h : Scanned state place s tokens states)
    (h' : Scanned (states.getLast?.getD state) (place.advance (s ++ [.scalar '\n'])) t more after) :
    Scanned state place (Text.nextLine s t) (tokens ++ more) (states ++ after) := by
  induction h with
  | @nil state place s ends =>
    have gap := Pattern.gap_nextLine_of_end t ends
    rw [List.nil_append, List.nil_append]
    cases h' with
    | nil ends' => exact .nil (by rw [gap, ends'])
    | cons found further =>
      have here : (place.advance (s ++ [.scalar '\n'])).advance (Pattern.gap t).1 =
          place.advance (Pattern.gap (Text.nextLine s t)).1 := by
        rw [gap, ← Cursor.advance_append, List.append_assoc]
        rfl
      rw [here] at further ⊢
      exact .cons (by rw [gap]; exact found) further
  | @cons state next place s piece rest kind tokens states found _ ih =>
    obtain ⟨isToken, whole⟩ := Token.matches_of_read? found
    have line : CodePoint.isBlank (.scalar '\n') = true := by decide
    have some : (Pattern.gap s).2 ≠ [] := by
      rw [← whole]
      exact List.append_ne_nil_of_left_ne_nil isToken.ne_nil _
    have ends : Pattern.ignored (Text.nextLine (Pattern.gap s).2 t) = none := by
      rw [← whole, Text.append_nextLine]
      exact (isToken.onward line t).ignored
    have gap := Pattern.gap_onward t some ends
    rw [List.getLast?_cons, Option.getD_some] at h'
    have here : place.advance (s ++ [.scalar '\n']) =
        ((place.advance (Pattern.gap s).1).advance piece).advance (rest ++ [.scalar '\n']) := by
      rw [← Cursor.advance_append, ← Cursor.advance_append, ← List.append_assoc, ← List.append_assoc,
        List.append_assoc (Pattern.gap s).1, whole, Pattern.gap_append]
    rw [here] at h'
    have taken := Token.read?_onward line t found
    rw [← Text.nextLine_eq] at gap
    have same : (Pattern.gap (Text.nextLine s t)).1 = (Pattern.gap s).1 := by rw [gap]; rfl
    rw [← same] at ih h' ⊢
    exact .cons (by rw [gap]; exact taken) (ih h')

end Parser

end Typings
