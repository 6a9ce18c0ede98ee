import Typings.Text.CodePoint
/-!
# Positions in a text

* `Loc`                a line and a column, both counted from one;
* `Cursor`             the offset of a code point together with its `Loc`;
* `Cursor.advance`     the cursor after a piece of text.

Only a line feed starts a new line.  Every other code point, a carriage return included, takes one
column.
-/

namespace Typings

structure Loc where
  line : Nat
  column : Nat
deriving DecidableEq, Inhabited

/-- a place in a text: the number of code points before it, and its line and column -/
structure Cursor where
  offset : Nat
  line : Nat
  column : Nat
deriving DecidableEq, Inhabited

namespace Cursor

def start : Cursor := ⟨0, 1, 1⟩

def loc (c : Cursor) : Loc := ⟨c.line, c.column⟩

def step (c : Cursor) (x : CodePoint) : Cursor :=
  if x = '\n' then ⟨c.offset + 1, c.line + 1, 1⟩ else ⟨c.offset + 1, c.line, c.column + 1⟩

def advance (c : Cursor) (t : Text) : Cursor := t.foldl step c

@[simp] theorem advance_nil (c : Cursor) : c.advance [] = c := rfl

@[simp] theorem advance_cons (c : Cursor) (x : CodePoint) (t : Text) :
    c.advance (x :: t) = (c.step x).advance t := rfl

theorem advance_append (c : Cursor) (s t : Text) :
    c.advance (s ++ t) = (c.advance s).advance t := List.foldl_append

theorem offset_step (c : Cursor) (x : CodePoint) : (c.step x).offset = c.offset + 1 := by
  unfold step
  split <;> rfl

theorem offset_advance (c : Cursor) (t : Text) :
    (c.advance t).offset = c.offset + t.length := by
  induction t generalizing c with
  | nil => rfl
  | cons x t ih => rw [advance_cons, ih, offset_step, List.length_cons, Nat.add_assoc, Nat.add_comm 1]

end Cursor

end Typings
