import Typings.Declaration.OfTree
import Typings.Report.Diagnostic
import Typings.Syntax.Message
/-!
# Reading a declaration file

* `ReadError`                 a syntax error, or a tree that cannot be read;
* `SourceFile.read`           the declarations of a text;
* `ReadError.diagnostic`      the error as a diagnostic about a file;
* `SourceFile.check`          the declarations, or the diagnostics that say why there are none.
-/

namespace Typings

/-- why a text gives no declarations -/
inductive ReadError where
  | syntaxError (e : SyntaxError)
  | buildError (e : BuildError)

namespace ReadError

def loc : ReadError → Loc
  | syntaxError e => e.place
  | buildError e => e.loc

def message (source : Text) : ReadError → Text
  | syntaxError e => e.message source
  | buildError e => e.message

/-- the span of the error in a file -/
def span (file : Text) : ReadError → Span
  | syntaxError e =>
    { file := some file, line := some e.place.line, column := some e.place.column,
      origin := some { line := some e.place.line, column := some e.place.column } }
  | buildError e => Span.ofPlace (some file) { line := some e.loc.line, column := some e.loc.column }

/-- the error as a diagnostic about a file -/
def diagnostic (file source : Text) (e : ReadError) : Diagnostic where
  message := e.message source
  severity := "error"
  phase := some "parser"
  span := e.span file

end ReadError

namespace SourceFile

def read (source : Text) : Except ReadError SourceFile :=
  match parse source with
  | .error e => .error (.syntaxError e)
  | .ok d =>
    match SourceFile.ofTree (.ofDerivation d) with
    | .error e => .error (.buildError e)
    | .ok f => .ok f

/-- the declarations of a text with no diagnostic, or none with a diagnostic -/
def check (file source : Text) : Option SourceFile × List Diagnostic :=
  match read source with
  | .ok f => (some f, [])
  | .error e => (none, [e.diagnostic file source])

end SourceFile

end Typings
