import Typings.Text.CodePoint
/-!
# Spans

* `Place`            whatever is known of a location: a file under one of two names, a line, a column;
* `Span`             a file, a line and a column as far as they are known, and the location they
                     were taken from;
* `Span.ofPlace`     the span of a location in a file;
* `Span.format`      the span as it stands before a message.
-/

namespace Typings

structure Place where
  file : Option Text := none
  filename : Option Text := none
  line : Option Int := none
  column : Option Int := none
deriving DecidableEq, Inhabited

/-- a file, a line and a column as far as they are known -/
structure Span where
  file : Option Text := none
  line : Option Int := none
  column : Option Int := none
  origin : Option Place := none
deriving DecidableEq, Inhabited

namespace Span

/-- the first name unless it is missing or empty, else the second -/
def orFile (a b : Option Text) : Option Text :=
  match a with
  | none | some [] => b
  | some name => some name

/-- the span of a location; a given file goes before those that the location knows -/
def ofPlace (file : Option Text) (place : Place) : Span where
  file := orFile (orFile file place.file) place.filename
  line := place.line
  column := place.column
  origin := some place

/-- what a span can be made of -/
inductive Source where
  | nothing
  | span (s : Span)
  | place (p : Place)

/-- a span of whatever is given; a span is taken as it is -/
def ofSource (file : Option Text) : Source → Span
  | .nothing => { file }
  | .span s => s
  | .place p => ofPlace file p

def number : Option Int → Text
  | none => "?"
  | some n => Text.ofInt n

/-- the file, or `<input>` if it has no name -/
def fileName (s : Span) : Text := (orFile s.file (some "<input>")).getD []

def format (s : Span) : Text :=
  s.fileName ++ ":" ++ number s.line ++ ":" ++ number s.column

end Span

end Typings
