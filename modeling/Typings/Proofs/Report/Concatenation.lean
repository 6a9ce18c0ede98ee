import Typings.Proofs.Declaration.Relocation
import Typings.Proofs.Model.Sites
import Typings.Proofs.Report.Spacing
import Typings.Proofs.Syntax.Joining
import Typings.Report.Convert
/-!
# Files one after the other

Two texts that are read, with a line feed between them, are read as the declarations of both.  The
places in the second one are further down; nothing else is different, so the class models stand
one after the other too.

* `Text.StartsApart`            the first token of a text is not run together with a name;
* `SourceFile.read_nextLine`    the main result.
-/

namespace Typings

/-- a place some lines further down -/
def Loc.down (k : Nat) (l : Loc) : Loc := ⟨l.line + k, l.column⟩

/-- what comes behind the first token of a text, if it has one, would not go on with a name -/
def Text.StartsApart (t : Text) : Prop :=
  ∀ d, parse t = .ok d → ∀ u ∈ d.tokens.head?,
    ¬ Text.Begins CodePoint.isNamePart (t.drop (u.start.offset + u.text.length))

/-- the elements of two rows of trees -/
theorem Element.ofTrees_append {ts us : List Tree} {xs ys : List Element} (hs : ofTrees ts = .ok xs)
    (ht : ofTrees us = .ok ys) : ofTrees (ts ++ us) = .ok (xs ++ ys) := by
  induction ts generalizing xs with
  | nil =>
    cases hs
    exact ht
  | cons t ts ih =>
    cases t with
    | leaf => exact ih hs
    | node label loc children =>
      rw [ofTrees] at hs
      cases first : ofNode? label loc children with
      | error e =>
        rw [first] at hs
        cases hs
      | ok element =>
        cases further : ofTrees ts with
        | error e =>
          rw [first, further] at hs
          cases hs
        | ok elements =>
          rw [first, further] at hs
          cases hs
          rw [List.cons_append, ofTrees, first, ih further]
          show Except.ok (element.toList ++ (elements ++ ys)) = _
          rw [List.append_assoc]

namespace Derivation

theorem ofTree_ofDerivation (d : Derivation) :
    SourceFile.ofTree (.ofDerivation d) = (Element.ofTrees d.elementTrees).map fun es => ⟨es⟩ := by
  cases d <;> rfl

/-- the elements of a file with its tokens in other places stand in other places -/
theorem elementTrees_map {f : Token → Token} {g : Loc → Loc} (kinds : ∀ t, (f t).kind = t.kind)
    (texts : ∀ t, (f t).text = t.text) (locs : ∀ t, (f t).start.loc = g t.start.loc) {d : Derivation}
    (valid : d.Valid) : (d.map f).elementTrees = Tree.movedAll g d.elementTrees := by
  cases valid with
  | leaf => rfl
  | node mem roots valids =>
    exact treesOf_mapAll kinds texts locs _ valids fun isFile =>
      Automaton.file_not_mem_rhs _ mem (roots ▸ isFile)

end Derivation

namespace SourceFile

/-- what is read has been parsed, and its elements are those of the derivation -/
theorem elements_of_read {source : Text} {f : SourceFile} (h : read source = .ok f) :
    ∃ d, parse source = .ok d ∧ Element.ofTrees d.elementTrees = .ok f.elements := by
  obtain ⟨d, parsed, built⟩ := ofTree_of_read h
  rw [Derivation.ofTree_ofDerivation] at built
  refine ⟨d, parsed, ?_⟩
  generalize Element.ofTrees d.elementTrees = elements at built ⊢
  cases elements with
  | error e => cases built
  | ok elements =>
    cases built
    rfl

/-- and the other way round -/
theorem read_of_elements {source : Text} {d : Derivation} {elements : List Element}
    (h : parse source = .ok d) (built : Element.ofTrees d.elementTrees = .ok elements) :
    read source = .ok ⟨elements⟩ := by
  rw [read_of_parse_ok h, Derivation.ofTree_ofDerivation, built]
  rfl

/-- the class model of a text that is read is that of its declarations -/
theorem lowered_convert {source : Text} {f : SourceFile} (h : read source = .ok f) (o : Options) :
    (convert o source).lowered = f.lower := by
  unfold convert check
  simp only [h]

/-- the class models of two rows of elements, one of them somewhere else -/
theorem lower_append_moved (g : Loc → Loc) (xs ys : List Element) :
    SourceFile.lower ⟨xs ++ ys.map (Element.moved g)⟩ = SourceFile.lower ⟨xs⟩ ++ SourceFile.lower ⟨ys⟩ := by
  rw [← lower_moved g ⟨ys⟩]
  show Lowered.concat ((xs ++ ys.map (Element.moved g)).map Element.lower) = _
  rw [List.map_append, Lowered.concat_append]
  rfl

/-- **Two texts that are read, the second one starting apart, are read with a line feed between them:
as the elements of the first one and then those of the second one, further down by the lines of the
first.  The warnings and classes are those of the first text and then those of the second.** -/
theorem read_nextLine {s t : Text} {f g : SourceFile} (hs : read s = .ok f) (ht : read t = .ok g)
    (apart : t.StartsApart) :
    read (Text.nextLine s t) =
        .ok ⟨f.elements ++ g.elements.map (Element.moved (Loc.down (s.lineFeeds + 1)))⟩ ∧
      ∀ o : Options,
        (convert o (Text.nextLine s t)).lowered.warnings =
          (convert o s).lowered.warnings ++ (convert o t).lowered.warnings ∧
        (convert o (Text.nextLine s t)).lowered.classes =
          (convert o s).lowered.classes ++ (convert o t).lowered.classes := by
  obtain ⟨d, parsed, elements⟩ := elements_of_read hs
  obtain ⟨d', parsed', elements'⟩ := elements_of_read ht
  obtain ⟨e, joined, trees⟩ := parse_nextLine parsed parsed' (apart d' parsed')
  rw [Derivation.elementTrees_map (f := Token.down (s.length + 1) (s.lineFeeds + 1))
    (g := Loc.down (s.lineFeeds + 1)) (fun _ => rfl) (fun _ => rfl) (fun _ => rfl)
    (explains_of_parse parsed').valid] at trees
  have moved := Element.ofTrees_moved (Loc.down (s.lineFeeds + 1)) _ _ elements'
  have whole := read_of_elements joined (trees ▸ Element.ofTrees_append elements moved)
  refine ⟨whole, fun o => ?_⟩
  rw [lowered_convert whole, lowered_convert hs, lowered_convert ht, lower_append_moved]
  exact ⟨rfl, rfl⟩

open Typings.Derivation Terminal Nonterminal in
/-- a variable whose declaration may go on -/
def variableX : Derivation :=
  single (phrase ambientElement
    [signAt 0 DECLARE, phrase ambientBody [phrase ambientVar [signAt 8 VAR, wordAt 12 NAME "x"]]])

open Typings.Derivation Terminal Nonterminal in
/-- an interface without members -/
def interfaceA : Derivation := interfaceOf (phrase objectType [signAt 12 LBRACE, signAt 13 RBRACE])

theorem interfaceA_valid : interfaceA.Valid ∧ interfaceA.Separated := by decide +kernel

theorem parse_variableX : parse "declare var x" = .ok variableX :=
  parse_of_stand (by decide +kernel) rfl (by decide +kernel) (by decide)

theorem parse_interfaceA : parse "interface A \x7b\x7d" = .ok interfaceA :=
  parse_of_stand ⟨interfaceA_valid.1, interfaceA_valid.2.parted .END⟩ rfl (by decide +kernel) (by decide)

theorem read_variableX : read "declare var x" =
    .ok ⟨[.ambientElement ⟨1, 1⟩ false (.variableDecl ⟨1, 9⟩ "x" none)]⟩ :=
  read_of_elements parse_variableX rfl

theorem read_interfaceA : read "interface A \x7b\x7d" =
    .ok ⟨[.interfaceElement ⟨1, 1⟩ false ⟨⟨1, 1⟩, "A", [], [], []⟩]⟩ :=
  read_of_elements parse_interfaceA rfl

theorem read_nextLine_variable_interface :
    let s : Text := "declare var x"
    let t : Text := "interface A \x7b\x7d"
    let var : Element := .ambientElement ⟨1, 1⟩ false (.variableDecl ⟨1, 9⟩ "x" none)
    let decl (line : Nat) : Element := .interfaceElement ⟨line, 1⟩ false ⟨⟨line, 1⟩, "A", [], [], []⟩
    read s = .ok ⟨[var]⟩ ∧ read t = .ok ⟨[decl 1]⟩ ∧ t.StartsApart ∧
      read (Text.nextLine s t) = .ok ⟨[var, decl 2]⟩ := by
  intro s t var decl
  have apart : t.StartsApart := by
    intro d parsed u first
    rw [parse_interfaceA] at parsed
    cases parsed
    cases first
    decide
  exact ⟨read_variableX, read_interfaceA, apart, (read_nextLine read_variableX read_interfaceA apart).1⟩

end SourceFile

end Typings
