import Mathlib.Data.List.Induction
import Typings.Proofs.Syntax.NextLine
/-!
# Places of tokens

Places are ordered by line and column.  Each token of a text starts where the text in front of it ends,
and further on than the tokens in front of it.

* `Loc.le_trans`, `Loc.lt_of_lt_of_le`  places are ordered by their lines, and in a line by their columns;
* `Text.locBehind`                      the place behind a text: a line for each line feed, a column for each
                                        code point of the last line;
* `Cursor.loc_advance`                  a cursor is at this place;
* `Spelled.increasing`                  tokens start one after the other;
* `Spelled.starts`                      each of them at an offset of the text.
-/

namespace Typings

/-! ## The order of places -/

namespace Loc

/-- further up, or further to the left in the same line -/
instance : LT Loc := ⟨fun l m => l.line < m.line ∨ l.line = m.line ∧ l.column < m.column⟩

instance : LE Loc := ⟨fun l m => l.line < m.line ∨ l.line = m.line ∧ l.column ≤ m.column⟩

theorem lt_iff {l m : Loc} : l < m ↔ l.line < m.line ∨ l.line = m.line ∧ l.column < m.column := Iff.rfl

theorem le_iff {l m : Loc} : l ≤ m ↔ l.line < m.line ∨ l.line = m.line ∧ l.column ≤ m.column := Iff.rfl

theorem le_refl (l : Loc) : l ≤ l := .inr ⟨rfl, Nat.le_refl _⟩

theorem le_of_lt {l m : Loc} (h : l < m) : l ≤ m := by
  rw [lt_iff] at h
  rw [le_iff]
  omega

theorem lt_of_lt_of_le {l m k : Loc} (h : l < m) (h' : m ≤ k) : l < k := by
  rw [le_iff] at h'
  rw [lt_iff] at h ⊢
  omega

theorem le_trans {l m k : Loc} (h : l ≤ m) (h' : m ≤ k) : l ≤ k := by
  rw [le_iff] at h h' ⊢
  omega

end Loc

/-! ## Cursors -/

/-- the place behind a text -/
def Text.locBehind (t : Text) : Loc :=
  ⟨1 + t.lineFeeds, 1 + (t.reverse.takeWhile (· ≠ .scalar '\n')).length⟩

namespace Cursor

theorem loc_lt_step (c : Cursor) (x : CodePoint) : c.loc < (c.step x).loc := by
  rw [Loc.lt_iff, step]
  split
  · exact .inl (Nat.lt_succ_self _)
  · exact .inr ⟨rfl, Nat.lt_succ_self _⟩

theorem loc_le_advance (c : Cursor) (t : Text) : c.loc ≤ (c.advance t).loc := by
  induction t generalizing c with
  | nil => exact Loc.le_refl _
  | cons x t ih => exact Loc.le_trans (Loc.le_of_lt (loc_lt_step c x)) (ih (c.step x))

theorem loc_lt_advance (c : Cursor) {t : Text} (some : t ≠ []) : c.loc < (c.advance t).loc := by
  obtain ⟨x, t, rfl⟩ := List.exists_cons_of_ne_nil some
  exact Loc.lt_of_lt_of_le (loc_lt_step c x) (loc_le_advance (c.step x) t)

/-- a cursor that has gone over a text is at the place behind it -/
theorem loc_advance (t : Text) : (start.advance t).loc = t.locBehind := by
  induction t using List.reverseRecOn with
  | nil => rfl
  | append_singleton t x ih =>
    obtain ⟨line, column⟩ := Loc.mk.inj ih
    have more : Text.lineFeeds (t ++ [x]) = Text.lineFeeds t + if x = '\n' then 1 else 0 := by
      simp only [Text.lineFeeds, List.count_append, List.count_singleton, beq_iff_eq]
    rw [advance_append, advance_cons, advance_nil, Text.locBehind, more, List.reverse_append,
      List.reverse_singleton, List.singleton_append, List.takeWhile_cons, step]
    by_cases feed : x = '\n'
    · rw [if_pos feed, if_pos feed, if_neg (by simpa using feed)]
      show Loc.mk _ _ = Loc.mk _ _
      rw [line]
      rfl
    · rw [if_neg feed, if_neg feed, if_pos (by simpa using feed), List.length_cons]
      show Loc.mk _ _ = Loc.mk _ _
      rw [line, column]
      rfl

/-- and its offset is the length of the text -/
theorem offset_advance_start (t : Text) : (start.advance t).offset = t.length := by
  rw [offset_advance, start, Nat.zero_add]

end Cursor

/-! ## Tokens -/

/-- tokens start one after the other -/
def Token.Increasing (tokens : List Token) : Prop :=
  tokens.Pairwise fun t u => t.start.loc < u.start.loc

namespace Spelled

/-- no token starts in front of the text -/
theorem loc_le {place : Cursor} {text : Text} {tokens : List Token} (h : Spelled place text tokens) :
    ∀ t ∈ tokens, place.loc ≤ t.start.loc := by
  induction h with
  | nil => exact fun _ ht => nomatch ht
  | @cons place gap piece _ _ _ _ _ _ _ ih =>
    intro t ht
    rcases List.mem_cons.mp ht with rfl | ht
    · exact place.loc_le_advance gap
    · exact Loc.le_trans (place.loc_le_advance gap)
        (Loc.le_trans ((place.advance gap).loc_le_advance piece) (ih t ht))

theorem increasing {place : Cursor} {text : Text} {tokens : List Token} (h : Spelled place text tokens) :
    Token.Increasing tokens := by
  induction h with
  | nil => exact .nil
  | @cons place gap _ _ _ _ _ some _ further ih =>
    exact .cons (fun t ht => Loc.lt_of_lt_of_le ((place.advance gap).loc_lt_advance some) (further.loc_le t ht)) ih

/-- each token starts behind some text in front of it -/
theorem starts {place : Cursor} {text : Text} {tokens : List Token} (h : Spelled place text tokens) :
    ∀ t ∈ tokens, ∃ front rest, text = front ++ (t.text ++ rest) ∧ t.start = place.advance front := by
  induction h with
  | nil => exact fun _ ht => nomatch ht
  | @cons place gap piece rest _ _ _ _ _ _ ih =>
    intro t ht
    rcases List.mem_cons.mp ht with rfl | ht
    · exact ⟨gap, rest, rfl, rfl⟩
    · obtain ⟨front, behind, rfl, start⟩ := ih t ht
      refine ⟨gap ++ piece ++ front, behind, by simp only [List.append_assoc], ?_⟩
      rw [start, ← Cursor.advance_append, ← Cursor.advance_append, List.append_assoc]

end Spelled

end Typings
