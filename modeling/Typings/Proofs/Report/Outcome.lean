import Typings.Proofs.Declaration.Files
import Typings.Proofs.Syntax.Factoring
import Typings.Proofs.Syntax.Stack
/-!
# The outcomes of reading

A text gives well-sorted declarations, a syntax error at a token or at a place, or the error of a
string literal.

* `SourceFile.reads`           the declarations of a valid derivation;
* `SourceFile.read_outcome`    the main result.
-/

namespace Typings

/-! ## Undecodable literals -/

/-- a token is a string literal that cannot be decoded -/
def Token.Undecodable (t : Token) : Prop :=
  t.kind = .STRING ∧ ∃ fault, Literal.decode t.text = .error fault

theorem Token.fault?_eq_some_iff {t : Token} {e : BuildError} :
    t.fault? = some e ↔
      ∃ fault, Literal.decode t.text = .error fault ∧ e = .badLiteral t.text fault t.start.loc := by
  unfold Token.fault?
  cases Literal.decode t.text with
  | ok value =>
    constructor
    · intro h
      cases h
    · rintro ⟨_, h, _⟩
      cases h
  | error fault =>
    constructor
    · intro h
      cases h
      exact ⟨fault, rfl, rfl⟩
    · rintro ⟨_, h, rfl⟩
      cases h
      rfl

theorem Token.fault?_ne_none {t : Token} {fault : BadLiteral}
    (h : Literal.decode t.text = .error fault) : t.fault? ≠ none := by
  rw [Token.fault?_eq_some_iff.mpr ⟨fault, h, rfl⟩]
  exact Option.some_ne_none _

/-- the message about a string literal says so -/
theorem BuildError.message_badLiteral (text : Text) (fault : BadLiteral) (loc : Loc) :
    Text.ofString "invalid string literal" <+: (badLiteral text fault loc).message := by
  have words : Text.ofString "invalid string literal " =
      Text.ofString "invalid string literal" ++ Text.ofString " " := rfl
  have front : Text.ofString "invalid string literal" <+:
      Text.ofString "invalid string literal " ++ text := by
    rw [words, List.append_assoc]
    exact List.prefix_append _ _
  cases said : fault.reason? with
  | none => simpa only [message, said] using front
  | some reason =>
    have more : Text.ofString "invalid string literal " ++ text <+:
        Text.ofString "invalid string literal " ++ text ++ Text.ofString ": " ++ reason := by
      rw [List.append_assoc]
      exact List.prefix_append _ _
    simpa only [message, said] using front.trans more

namespace SourceFile

/-! ## Reading -/

/-- the declarations of a valid derivation of a file are well sorted, unless a string literal
cannot be decoded -/
theorem reads {d : Derivation} (valid : d.Valid) (root : d.root = .nonterminal .file) :
    Reads d.literals SourceFile.Sorted (SourceFile.ofTree (.ofDerivation d)) := by
  have shows := valid.shows
  rw [root] at shows
  obtain ⟨loc, cs, shown, elements⟩ := shows
  cases d with
  | leaf token => cases root
  | node p parts =>
    have isFile : p.lhs = .file := Symbol.nonterminal.inj root
    rw [Derivation.trees, isFile] at shown
    cases shown
    have whole : SourceFile.ofTree (.ofDerivation (.node p parts)) =
        Element.ofTrees (Derivation.treesOf parts) >>= fun elements => .ok ⟨elements⟩ := by
      rw [Tree.ofDerivation, SourceFile.ofTree]
      cases Element.ofTrees (Derivation.treesOf parts) with
      | error e => rfl
      | ok elements => rfl
    rw [whole]
    exact elements.map fun _ sorted => sorted

/-- a syntactically accepted text is read, or its first bad literal is reported -/
theorem read_of_parse {source : Text} {d : Derivation} (h : parse source = .ok d) :
    match d.literals.findSome? Token.fault? with
    | none => ∃ f, read source = .ok f ∧ f.Sorted
    | some e => read source = .error (.buildError e) := by
  have explains := explains_of_parse h
  have built := reads explains.valid explains.root
  unfold Reads at built
  rw [read_of_parse_ok h]
  cases first : d.literals.findSome? Token.fault? with
  | none =>
    rw [first] at built
    obtain ⟨f, e, sorted⟩ := built
    exact ⟨f, by rw [e]; rfl, sorted⟩
  | some e =>
    rw [first] at built
    show Except.mapError _ _ = _
    rw [built]
    rfl

/-- **Every text has one of four outcomes: well-sorted declarations, an unexpected token, an
unexpected character, or the error of a string literal that cannot be decoded.  The last one
comes exactly for the texts that are accepted, by a derivation that explains them, and hold such a
literal.** -/
theorem read_outcome (source : Text) :
    (match read source with
      | .ok f => f.Sorted
      | .error (.syntaxError e) => parse source = .error e ∧ e ≠ .derailed
      | .error (.buildError e) => (∃ text fault loc, e = .badLiteral text fault loc) ∧
          Text.ofString "invalid string literal" <+: e.message) ∧
    ((∃ e, read source = .error (.buildError e)) ↔
      ∃ d, parse source = .ok d ∧ d.Explains source ∧ ∃ t ∈ d.tokens, t.Undecodable) := by
  cases parsed : parse source with
  | error e =>
    rw [read_of_parse_error parsed]
    refine ⟨⟨rfl, fun derailed => ?_⟩, ?_⟩
    · rw [derailed] at parsed
      exact parse_ne_derailed source parsed
    · constructor
      · rintro ⟨_, h⟩
        cases h
      · rintro ⟨_, h, _⟩
        cases h
  | ok d =>
    have outcome := read_of_parse parsed
    cases first : d.literals.findSome? Token.fault? with
    | none =>
      rw [first] at outcome
      obtain ⟨f, done, sorted⟩ := outcome
      rw [done]
      refine ⟨sorted, ?_⟩
      constructor
      · rintro ⟨_, h⟩
        cases h
      · rintro ⟨_, h, _, t, mem, isString, fault, bad⟩
        cases h
        have good := List.findSome?_eq_none_iff.mp first t ((d.mem_literals t).mpr ⟨mem, isString⟩)
        exact absurd good (Token.fault?_ne_none bad)
    | some e =>
      rw [first] at outcome
      obtain ⟨t, mem, found⟩ := List.exists_of_findSome?_eq_some first
      obtain ⟨mem, isString⟩ := (d.mem_literals t).mp mem
      obtain ⟨fault, bad, rfl⟩ := Token.fault?_eq_some_iff.mp found
      rw [show read source = _ from outcome]
      refine ⟨⟨⟨_, _, _, rfl⟩, BuildError.message_badLiteral _ _ _⟩, ?_⟩
      constructor
      · intro _
        exact ⟨d, rfl, explains_of_parse parsed, t, mem, isString, fault, bad⟩
      · intro _
        exact ⟨_, rfl⟩

end SourceFile

end Typings
