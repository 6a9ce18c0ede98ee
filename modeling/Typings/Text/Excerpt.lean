import Typings.Text.CodePoint
/-!
# Excerpts

The line around a place in a text, with a mark below the place.

* `Excerpt.reach`        how many code points are shown on each side;
* `Excerpt.before`       what of the line stands before the place;
* `Excerpt.after`        what of the line stands from the place on;
* `Excerpt.span`         the columns that a text takes, tabs filled up to multiples of eight;
* `Excerpt.around`       both sides, and the mark on a line of its own.
-/

namespace Typings.Excerpt

def reach : Nat := 40

def lastLine (t : Text) : Text := (t.reverse.takeWhile (· ≠ .scalar '\n')).reverse

def before (source : Text) (offset : Nat) : Text :=
  lastLine ((source.take offset).drop (offset - reach))

def after (source : Text) (offset : Nat) : Text :=
  ((source.drop offset).take reach).takeWhile (· ≠ .scalar '\n')

/-- the columns that a text takes behind a column; a tab goes on to the next multiple of eight, and
a line end starts counting these anew -/
def spanFrom (column : Nat) : Text → Nat
  | [] => 0
  | x :: t =>
    if x = '\t' then (8 - column % 8) + spanFrom (column + (8 - column % 8)) t
    else if x = '\n' ∨ x = '\r' then 1 + spanFrom 0 t
    else 1 + spanFrom (column + 1) t

/-- the columns that a text takes at the start of a line -/
def span (t : Text) : Nat := spanFrom 0 t

/-- the line around an offset with a mark below it -/
def around (source : Text) (offset : Nat) : Text :=
  before source offset ++ after source offset ++ Text.ofString "\n" ++
    List.replicate (span (before source offset)) (CodePoint.scalar ' ') ++ Text.ofString "^\n"

end Typings.Excerpt
