import Typings.Proofs.Report.Printing
import Typings.Proofs.Text.Spelling
/-!
# Modules named by a literal

A module may be named by any literal.  The declaration of an empty one is five tokens, whatever pieces the
literal is written in, and the name of the module is what the pieces stand for.

* `Derivation.emptyModule`        the declaration of an empty module;
* `SourceFile.read_emptyModule`   the main result.
-/

namespace Typings

/-- the text between two quotes -/
def Text.between (quote : Char) (body : Text) : Text := .scalar quote :: (body ++ [.scalar quote])

/-- the declaration of an empty module with a name -/
def Text.emptyModule (name : Text) : Text := Text.ofString "declare module " ++ name ++ Text.ofString " \x7b\x7d"

namespace Derivation
open Terminal Nonterminal

/-- the parts of the declaration of an empty module that is named by a literal -/
def emptyModuleBody (literal : Text) : Derivation :=
  let opening := ((Cursor.mk 15 1 16).advance literal).advance " "
  phrase ambientElement [leaf ⟨DECLARE, "declare", ⟨0, 1, 1⟩⟩, phrase ambientBody [phrase ambientModule [
    leaf ⟨MODULE, "module", ⟨8, 1, 9⟩⟩, phrase moduleName [leaf ⟨STRING, literal, ⟨15, 1, 16⟩⟩],
    leaf ⟨LBRACE, "\x7b", opening⟩, leaf ⟨RBRACE, "\x7d", opening.advance "\x7b"⟩]]]

/-- the declaration of an empty module that is named by a literal -/
def emptyModule (literal : Text) : Derivation := single (emptyModuleBody literal)

theorem emptyModule_productions : ⟨Nonterminal.element, [.nonterminal ambientElement]⟩ ∈ productions ∧
    ∀ p ∈ ([⟨ambientElement, [DECLARE, ambientBody]⟩, ⟨ambientBody, [.nonterminal ambientModule]⟩,
      ⟨ambientModule, [.terminal MODULE, moduleName, LBRACE, RBRACE]⟩, ⟨moduleName, [STRING]⟩] : List Production),
      p ∈ separated := by
  with_unfolding_all decide

theorem emptyModule_separated (literal : Text) : (emptyModuleBody literal).Separated := by
  obtain ⟨_, kept⟩ := emptyModule_productions
  simp only [List.forall_mem_cons] at kept
  obtain ⟨element, body, module, name, _⟩ := kept
  exact .node element (.cons (.leaf _) (.cons (.node body (.cons (.node module (.cons (.leaf _)
    (.cons (.node name (.cons (.leaf _) .nil)) (.cons (.leaf _) (.cons (.leaf _) .nil))))) .nil)) .nil))

theorem emptyModule_valid (literal : Text) : (emptyModule literal).Valid := by
  obtain ⟨isElement, kept⟩ := emptyModule_productions
  simp only [List.forall_mem_cons] at kept
  obtain ⟨element, body, module, name, _⟩ := kept
  refine single_valid isElement (.node (mem_productions_of_separated element) rfl ?_)
  refine .cons (.leaf _) (.cons (.node (mem_productions_of_separated body) rfl (.cons ?_ .nil)) .nil)
  refine .node (mem_productions_of_separated module) rfl (.cons (.leaf _) (.cons ?_ (.cons (.leaf _)
    (.cons (.leaf _) .nil))))
  exact .node (mem_productions_of_separated name) rfl (.cons (.leaf _) .nil)

theorem tokens_emptyModule (literal : Text) :
    (emptyModule literal).tokens.map (fun t => (t.kind, t.text)) =
      [(DECLARE, Text.ofString "declare"), (MODULE, Text.ofString "module"), (STRING, literal),
        (LBRACE, Text.ofString "\x7b"), (RBRACE, Text.ofString "\x7d")] := by
  rw [emptyModule, tokens_single]
  rfl

theorem trees_emptyModule (literal : Text) : (emptyModuleBody literal).trees =
    [.node (.phrase ambientElement) ⟨1, 1⟩ [.leaf (some DECLARE) "declare" ⟨1, 1⟩,
      .node (.phrase ambientModule) ⟨1, 9⟩
        [.node (.phrase moduleName) ⟨1, 16⟩ [.leaf (some STRING) literal ⟨1, 16⟩]]]] := rfl

/-- the tokens of the declaration have their places in its text -/
theorem laid_emptyModule {literal : Text} (isString : STRING.Matches literal []) :
    Laid .start (Text.emptyModule literal) (emptyModule literal).tokens := by
  have text : Text.emptyModule literal = [] ++ (Text.ofString "declare" ++ (Text.ofString " " ++
      (Text.ofString "module" ++ (Text.ofString " " ++ (literal ++ (Text.ofString " " ++
        (Text.ofString "\x7b" ++ ([] ++ (Text.ofString "\x7d" ++ []))))))))) := by
    have front : Text.ofString "declare module " = Text.ofString "declare" ++ (Text.ofString " " ++
        (Text.ofString "module" ++ Text.ofString " ")) := by
      decide
    rw [Text.emptyModule, front]
    simp only [List.append_assoc, List.nil_append]
    rfl
  have isModule : MODULE.Matches "module" [] := .spelled rfl
  have isOpening : LBRACE.Matches "\x7b" [] := .spelled rfl
  rw [text, emptyModule, tokens_single]
  refine .cons (.nil _) (.spelled rfl) (Text.not_begins_cons (Terminal.goesOn_space _) _)
    (.cons (gap_space _ isModule) isModule (Text.not_begins_cons (Terminal.goesOn_space _) _) ?_)
  refine .cons (gap_space _ isString) isString (fun ⟨_, _, goesOn⟩ => nomatch goesOn) ?_
  exact .cons (gap_space _ isOpening) isOpening (fun ⟨_, _, goesOn⟩ => nomatch goesOn)
    (.cons (.nil _) (.spelled rfl) Text.not_begins_nil (.nil (.nil [])))

end Derivation

namespace SourceFile
open Terminal Literal

/-- **The declaration of an empty module is read whatever its name is spelled as: its tokens are the two
keywords, the one literal and the braces, and the name is what the pieces of the literal stand for.** -/
theorem read_emptyModule {quote : Char} (isQuote : quote = '"' ∨ quote = '\'')
    {pieces : List (Text × Text)} (spelled : Literal.Spelled quote '\r' pieces) :
    let literal := Text.between quote (pieces.flatMap Prod.fst)
    ∃ d, parse (Text.emptyModule literal) = .ok d ∧
      d.tokens.map (fun t => (t.kind, t.text)) =
        [(DECLARE, Text.ofString "declare"), (MODULE, Text.ofString "module"), (STRING, literal),
          (LBRACE, Text.ofString "\x7b"), (RBRACE, Text.ofString "\x7d")] ∧
      read (Text.emptyModule literal) =
        .ok ⟨[.ambientElement ⟨1, 1⟩ false (.moduleDecl ⟨1, 9⟩ [pieces.flatMap Prod.snd] [])]⟩ := by
  intro literal
  have noFeed : (.scalar '\r' : CodePoint) ≠ '\n' := by decide
  have isString : STRING.Matches literal [] := matches_spelled isQuote noFeed spelled []
  have decoded : decode literal = .ok (pieces.flatMap Prod.snd) := decode_spelled isQuote spelled
  have parsed : parse (Text.emptyModule literal) = .ok (Derivation.emptyModule literal) := by
    refine parse_of_laid (Derivation.emptyModule_valid literal) rfl
      (Derivation.single_parted ((Derivation.emptyModule_separated literal).parted _))
      (Derivation.laid_emptyModule isString) fun states expects => ?_
    -- no token is a name
    refine expects.imp fun s t mem _ isName => ?_
    have mem' := List.mem_map_of_mem (f := fun t => (t.kind, t.text)) mem
    rw [Derivation.tokens_emptyModule, isName] at mem'
    simp at mem'
  refine ⟨_, parsed, Derivation.tokens_emptyModule literal, read_of_elements parsed ?_⟩
  have path : Tree.path [.leaf (some STRING) literal ⟨1, 16⟩] = .ok [pieces.flatMap Prod.snd] := by
    rw [Tree.path, if_pos rfl, Tree.literal, decoded]
    rfl
  have module : AmbientDecl.ofTree (.node (.phrase .ambientModule) ⟨1, 9⟩
      [.node (.phrase .moduleName) ⟨1, 16⟩ [.leaf (some STRING) literal ⟨1, 16⟩]]) =
        .ok (.moduleDecl ⟨1, 9⟩ [pieces.flatMap Prod.snd] []) := by
    show (Tree.path [.leaf (some STRING) literal ⟨1, 16⟩]).bind (fun path => .ok (AmbientDecl.moduleDecl ⟨1, 9⟩ path [])) = _
    rw [path]
    rfl
  rw [Derivation.emptyModule, Derivation.elementTrees_single (Derivation.trees_emptyModule literal),
    Element.ofTrees, Element.ofNode?, AmbientDecl.firstIn?, AmbientDecl.firstIn?, module]
  rfl

/-- a piece of each kind: the other quote, a sign, a number in octal digits, a surrogate, a continued line, and
an escape that is none -/
def sixPieces : List (Text × Text) := [
  ("'", "'"), ("\\\"", "\""), ("\\101", "A"), ("\\ud83D", [.surrogate ⟨0x3D, by decide⟩]), ("\\\r", ""),
  ("\\9", "\\9")]

theorem sixPieces_spelled : Literal.Spelled '"' '\r' sixPieces := by
  have letter : ('u', 4) ∈ Quoted.letters := by decide
  have nine : Quoted.Inner (.scalar '9') := ⟨rfl, by decide, by decide, by decide⟩
  simp only [Literal.Spelled, sixPieces, List.forall_mem_cons]
  refine ⟨.plain ⟨rfl, by decide, by decide, by decide⟩ (by decide) (by decide),
    .sign (v := '"') (by decide), .octal (i := 1) (j := 0) (k := 1) (by decide) (by decide) (by decide),
    .number letter (.cons (by decide : Literal.HexDigit 'd' 13) (.cons (by decide : Literal.HexDigit '8' 8)
      (.cons (by decide : Literal.HexDigit '3' 3) (.cons (by decide : Literal.HexDigit 'D' 13) .nil)))) rfl
      (by decide), .continued, .both nine (by decide) (by decide) (by decide), List.forall_mem_nil _⟩

theorem read_emptyModule_sixPieces :
    Literal.Spelled '"' '\r' sixPieces ∧
    Text.emptyModule (Text.between '"' (sixPieces.flatMap Prod.fst)) =
      Text.ofString "declare module \"'\\\"\\101\\ud83D\\\r\\9\" \x7b\x7d" ∧
    sixPieces.flatMap Prod.snd = Text.ofString "'\"A" ++ [.surrogate ⟨0x3D, by decide⟩] ++ Text.ofString "\\9" ∧
    read (Text.ofString "declare module \"'\\\"\\101\\ud83D\\\r\\9\" \x7b\x7d") =
      .ok ⟨[.ambientElement ⟨1, 1⟩ false (.moduleDecl ⟨1, 9⟩ [sixPieces.flatMap Prod.snd] [])]⟩ := by
  have text : Text.emptyModule (Text.between '"' (sixPieces.flatMap Prod.fst)) =
      Text.ofString "declare module \"'\\\"\\101\\ud83D\\\r\\9\" \x7b\x7d" := by
    decide
  obtain ⟨_, _, _, done⟩ := read_emptyModule (.inl rfl) sixPieces_spelled
  exact ⟨sixPieces_spelled, text, by decide, text ▸ done⟩

end SourceFile

end Typings
