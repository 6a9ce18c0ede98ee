import Typings.Proofs.Model.Making
import Typings.Proofs.Report.Outcome
import Typings.Report.Convert
/-!
# What a conversion says

A conversion always comes to an end.  It gives the same warnings and classes whatever is said about it.

* `ReadError.Reported`         the failures that a diagnostic is made for;
* `convert_outcome`            the main result.
-/

namespace Typings

/-- a failure that a diagnostic is made for: an unexpected token or code point, or a string literal that
cannot be decoded.  A table that does not fit and a tree that lacks a part are no such failures. -/
def ReadError.Reported : ReadError → Prop
  | syntaxError e => e ≠ .derailed
  | buildError e => ∃ text fault loc, e = .badLiteral text fault loc

/-- a text is read as well-sorted declarations, or fails in one of these ways -/
theorem SourceFile.read_reported (source : Text) : match read source with
    | .error e => e.Reported
    | .ok f => f.Sorted := by
  cases parsed : parse source with
  | error e =>
    rw [read_of_parse_error parsed]
    rintro rfl
    exact parse_ne_derailed source parsed
  | ok d =>
    have outcome := read_of_parse parsed
    cases first : d.literals.findSome? Token.fault? with
    | none =>
      rw [first] at outcome
      obtain ⟨f, done, sorted⟩ := outcome
      rw [done]
      exact sorted
    | some e =>
      rw [first] at outcome
      obtain ⟨t, _, found⟩ := List.exists_of_findSome?_eq_some first
      obtain ⟨fault, _, rfl⟩ := Token.fault?_eq_some_iff.mp found
      rw [show read source = _ from outcome]
      exact ⟨_, _, _, rfl⟩

namespace Conversion
variable {source : Text}

theorem check_of_error {e : ReadError} (h : SourceFile.read source = .error e) (file : Text) :
    SourceFile.check file source = (none, [e.diagnostic file source]) := by
  rw [SourceFile.check, h]

theorem check_of_ok {f : SourceFile} (h : SourceFile.read source = .ok f) (file : Text) :
    SourceFile.check file source = (some f, []) := by
  rw [SourceFile.check, h]

theorem convert_of_error {e : ReadError} (h : SourceFile.read source = .error e) (o : Options) :
    convert o source = ⟨{}, [e.diagnostic o.filename source], []⟩ := by
  rw [convert, check_of_error h]

theorem convert_of_ok {f : SourceFile} (h : SourceFile.read source = .ok f) (o : Options) :
    convert o source = ⟨f.lower, [],
      if o.verbosity ≤ 1 then [] else ["== AST for " ++ o.filename ++ " ==", f.render]⟩ := by
  have shown : o.showsOutline = !decide (o.verbosity ≤ 1) := by
    unfold Options.showsOutline
    rw [← decide_not]
    exact decide_eq_decide.mpr Int.not_le.symm
  rw [convert, check_of_ok h]
  simp only [shown]
  by_cases quiet : o.verbosity ≤ 1
  · rw [if_pos quiet, decide_eq_true quiet]
    rfl
  · rw [if_neg quiet, decide_eq_false quiet]
    rfl

end Conversion

open Conversion in
/-- **A conversion gives the same warnings and classes for all options.  If the text is not read, for one
of the reasons that are reported, there are none, and one diagnostic is said.  If it is read, the
declarations are well sorted, and no class fails the check that its parts go together, neither when it is
made nor when it is put into a module; from the second level of verbosity on a heading and the outline are
said, and nothing below.** -/
theorem convert_outcome (source : Text) :
    (∀ o o' : Options, (convert o source).lowered = (convert o' source).lowered) ∧
    match SourceFile.read source with
    | .error e => e.Reported ∧ ∀ o : Options, (convert o source).lowered = {} ∧
        SourceFile.check o.filename source = (none, [e.diagnostic o.filename source]) ∧
        (convert o source).emitted = [(e.diagnostic o.filename source).format]
    | .ok f => f.Sorted ∧ ∀ o : Options,
        (convert o source).lowered = f.lower ∧
        f.make? = .ok (convert o source).lowered ∧
        SourceFile.check o.filename source = (some f, []) ∧
        (convert o source).emitted =
          if o.verbosity ≤ 1 then [] else ["== AST for " ++ o.filename ++ " ==", f.render] := by
  have outcome := SourceFile.read_reported source
  cases done : SourceFile.read source with
  | error e =>
    rw [done] at outcome
    refine ⟨fun o o' => by rw [convert_of_error done, convert_of_error done], outcome, fun o => ?_⟩
    refine ⟨by rw [convert_of_error done], check_of_error done _, ?_⟩
    rw [convert_of_error done]
    rfl
  | ok f =>
    rw [done] at outcome
    refine ⟨fun o o' => by rw [convert_of_ok done, convert_of_ok done], outcome, fun o => ?_⟩
    refine ⟨by rw [convert_of_ok done], by rw [convert_of_ok done, f.make?_eq], check_of_ok done _, ?_⟩
    rw [convert_of_ok done, emitted]
    exact List.append_nil _

end Typings
