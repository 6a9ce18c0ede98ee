import Typings.Command.Run
import Typings.Proofs.Report.Concatenation
import Typings.Proofs.Syntax.Seeing
/-!
# Reading with other line ends

A text is read with carriage returns in front of its line feeds as it is read without them.  Only the
offsets of an error are others.  So it does not matter whether the line ends of a file are unified before it
is converted.

* `ReadError.seen`           an error with the lines and columns of its places only;
* `SourceFile.read_crlf`     the main result.
-/

namespace Typings

/-- an error with the lines and columns of its places only -/
def ReadError.seen : ReadError → ReadError
  | syntaxError e => syntaxError e.seen
  | buildError e => buildError e

mutual

/-- trees that are moved to where they are stay as they are -/
theorem Tree.moved_self : ∀ t : Tree, t.moved (fun loc => loc) = t
  | .leaf .. => rfl
  | .node label loc children => congrArg (Tree.node label loc) (Tree.movedAll_self children)

theorem Tree.movedAll_self : ∀ ts : List Tree, Tree.movedAll (fun loc => loc) ts = ts
  | [] => rfl
  | t :: rest => congrArg₂ List.cons (Tree.moved_self t) (Tree.movedAll_self rest)

end

/-- the trees of a file tell its tokens by their lines and columns only -/
theorem Derivation.elementTrees_seen {d : Derivation} (valid : d.Valid) :
    (d.map Token.seen).elementTrees = d.elementTrees := by
  rw [elementTrees_map (f := Token.seen) (g := fun loc => loc) (fun _ => rfl) (fun _ => rfl)
    (fun _ => rfl) valid, Tree.movedAll_self]

namespace SourceFile

theorem read_crlf_seen (s : Text) :
    (read s.crlf).mapError ReadError.seen = (read s).mapError ReadError.seen := by
  have outcome := Parser.parse_crlf s
  cases parsed : parse s with
  | error e =>
    cases parsed' : parse s.crlf with
    | ok d' =>
      rw [parsed, parsed'] at outcome
      cases outcome
    | error e' =>
      rw [parsed, parsed'] at outcome
      have same : e'.seen = e.seen := Except.error.inj outcome
      rw [read_of_parse_error parsed, read_of_parse_error parsed']
      exact congrArg (fun e => Except.error (ReadError.syntaxError e)) same
  | ok d =>
    cases parsed' : parse s.crlf with
    | error e' =>
      rw [parsed, parsed'] at outcome
      cases outcome
    | ok d' =>
      rw [parsed, parsed'] at outcome
      have same : d'.map Token.seen = d.map Token.seen := Except.ok.inj outcome
      rw [read_of_parse_ok parsed, read_of_parse_ok parsed', Derivation.ofTree_ofDerivation,
        Derivation.ofTree_ofDerivation, ← Derivation.elementTrees_seen (explains_of_parse parsed').valid, same,
        Derivation.elementTrees_seen (explains_of_parse parsed).valid]

/-- the class model of a text is that of its declarations, and empty if there are none -/
theorem lowered_convert_eq (o : Options) (source : Text) :
    (convert o source).lowered = ((read source).map SourceFile.lower).toOption.getD {} := by
  unfold convert check
  cases read source <;> rfl

/-- **A text with a carriage return in front of each line feed gives the declarations or the error of the text
without them, with the same lines and columns.  So the class model of a file with such line ends is that
of its text as it is.** -/
theorem read_crlf (s : Text) :
    (read s.crlf).mapError ReadError.seen = (read s).mapError ReadError.seen ∧
      ∀ (fs : FileSystem) (path : Path) (bytes : List UInt8) (o : Option Options) (o' : Options),
        .scalar '\r' ∉ s → path.fault? = none → fs.read path = .ok bytes →
        Utf8.decode? bytes = some s.crlf →
          ∃ c, convertFile fs path o = .ok c ∧ c.lowered = (convert o' s.crlf).lowered := by
  refine ⟨read_crlf_seen s, fun fs path bytes o o' plain nameable found decoded => ?_⟩
  have text : sourceText? bytes = some s := by
    rw [sourceText?, decoded, Option.map_some, Text.unifyLineEnds_crlf plain]
  refine ⟨convert (o.getD { filename := path.toText }) s, ?_, ?_⟩
  · unfold convertFile
    simp only [nameable, found, text]
  · -- the declarations are what is left when the errors are forgotten
    have forget (r : Except ReadError SourceFile) :
        (r.map SourceFile.lower).toOption = ((r.mapError ReadError.seen).map SourceFile.lower).toOption := by
      cases r <;> rfl
    rw [lowered_convert_eq, lowered_convert_eq, forget, forget (read s.crlf), read_crlf_seen]

theorem read_crlf_variable :
    let s : Text := "declare\nvar x"
    let bytes : List UInt8 :=
      [100, 101, 99, 108, 97, 114, 101, 13, 10, 118, 97, 114, 32, 120]
    let fs : FileSystem := ⟨[(["x.d.ts"], bytes)]⟩
    let path : Path := .ofText "x.d.ts"
    .scalar '\r' ∉ s ∧ path.fault? = none ∧ fs.read path = .ok bytes ∧
      Utf8.decode? bytes = some s.crlf ∧
        ∃ c, convertFile fs path none = .ok c ∧ c.lowered = (convert {} s.crlf).lowered := by
  intro s bytes fs path
  have plain : .scalar '\r' ∉ s := by decide
  have nameable : path.fault? = none := by decide
  have found : fs.read path = .ok bytes := by decide
  have decoded : Utf8.decode? bytes = some s.crlf := by decide
  exact ⟨plain, nameable, found, decoded,
    (read_crlf s).2 fs path bytes none {} plain nameable found decoded⟩

end SourceFile

end Typings
