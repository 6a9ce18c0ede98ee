import Typings.Declaration.Print
import Typings.Model.OfDeclaration
import Typings.Report.Read
/-!
# Converting a declaration file

* `Options`              how much is said, and what the file is called;
* `Conversion`           warnings and classes, the diagnostics, and the outline if it was asked for;
* `convert`              the conversion of a text;
* `Conversion.emitted`   what is said about it.
-/

namespace Typings

/-- how much is said, and what the file is called -/
structure Options where
  verbosity : Int := 0
  filename : Text := "<input>"
deriving DecidableEq, Inhabited

/-- the outline is shown from the second level of verbosity on -/
def Options.showsOutline (o : Options) : Bool := o.verbosity > 1

structure Conversion where
  lowered : Lowered
  diagnostics : List Diagnostic
  outline : List Text

def convert (o : Options) (source : Text) : Conversion :=
  match SourceFile.check o.filename source with
  | (none, diagnostics) => ⟨{}, diagnostics, []⟩
  | (some f, diagnostics) =>
    ⟨f.lower, diagnostics,
      if o.showsOutline then ["== AST for " ++ o.filename ++ " ==", f.render] else []⟩

namespace Conversion

/-- the outline, and then each diagnostic on a line -/
def emitted (c : Conversion) : List Text := c.outline ++ c.diagnostics.map Diagnostic.format

/-- something that is said, each on lines of its own -/
def lines (said : List Text) : Text := said.flatMap fun t => t ++ Text.ofString "\n"

end Conversion

end Typings
