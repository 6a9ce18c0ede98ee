import Typings.Proofs.Declaration.ReadingBack
import Typings.Proofs.Report.Locations
import Typings.Proofs.Report.Printing
/-!
# Printed types are read back

A type that stands as an annotation in a file is read off a legible tree, if no name of a member is a string
literal.  So what is printed of it is read back, here behind the name of a variable.

* `SourceFile.Annotates`            a type stands in a file, and not as a base;
* `TypeExpr.Occurs`                 it does so in a file that is read;
* `TypeExpr.ReadsBack.variable`     a variable of a type that is read back;
* `TypeExpr.read_render_type`       the main result.
-/

namespace Typings
open Terminal Nonterminal

/-- a type stands in a file, anywhere but among the types that a class or an interface extends or implements -/
def SourceFile.Annotates (f : SourceFile) (t : TypeExpr) : Prop :=
  ∃ n, f.Holds n ∧ ∃ row ∈ n.parts, .type t ∈ row

/-- a type stands in a file that is read, in which no name of a member is written as a string literal -/
def TypeExpr.Occurs (t : TypeExpr) : Prop :=
  ∃ source f d, SourceFile.read source = .ok f ∧ parse source = .ok d ∧ d.Unquoted ∧ f.Annotates t

/-! ## The trees of annotations -/

namespace GrownRow
variable {strict : Bool} {owner : Label} {ts : List Tree} {ns : List Node}

/-- the nodes in a row of legible trees have legible trees -/
theorem member : ∀ {strict : Bool} {owner : Label} {ts : List Tree} {ns : List Node}, GrownRow strict owner ts ns →
    (∀ t ∈ ts, t.Legible) → ∀ m ∈ ns, ∃ t : Tree, t.Legible ∧ Grown t m
  | _, _, _, _, .nil, _, _, hm => absurd hm List.not_mem_nil
  | _, _, _, _, .skip further, legible, m, hm => member further (List.forall_mem_cons.mp legible).2 m hm
  | _, _, _, _, .take _ _ here further, legible, m, hm => by
    obtain ⟨first, legible⟩ := List.forall_mem_cons.mp legible
    rcases List.mem_cons.mp hm with rfl | hm
    · exact ⟨_, first, here⟩
    · exact member further legible m hm
  | _, _, _, _, .inner below further, legible, m, hm => by
    obtain ⟨first, legible⟩ := List.forall_mem_cons.mp legible
    rcases List.mem_append.mp hm with hm | hm
    · cases first with
      | node inner => exact member below inner m hm
    · exact member further legible m hm

/-- the types in a strict row of legible trees are read back -/
theorem readsBack : ∀ {strict : Bool} {owner : Label} {ts : List Tree} {ns : List Node}, GrownRow strict owner ts ns →
    strict = true → (∀ t ∈ ts, t.Legible) → (owner.inherits = false → ∀ t ∈ ts, t.RefersFree typeWords) →
    ∀ x, Node.type x ∈ ns → x.ReadsBack
  | _, _, _, _, .nil, _, _, _, _, hx => absurd hx List.not_mem_nil
  | _, _, _, _, .skip further, strict, legible, free, x, hx =>
    readsBack further strict (List.forall_mem_cons.mp legible).2
      (fun owned => (List.forall_mem_cons.mp (free owned)).2) x hx
  | _, _, _, _, .take owned read _ further, strict, legible, free, x, hx => by
    obtain ⟨first, legible⟩ := List.forall_mem_cons.mp legible
    rcases List.mem_cons.mp hx with rfl | hx
    · have freeHere := (List.forall_mem_cons.mp (free (owned strict))).1
      exact TypeExpr.ofTree_readsBack _ first freeHere x read
    · exact readsBack further strict legible (fun owned => (List.forall_mem_cons.mp (free owned)).2) x hx
  | _, _, _, _, .inner below further, strict, legible, free, x, hx => by
    obtain ⟨first, legible⟩ := List.forall_mem_cons.mp legible
    rcases List.mem_append.mp hx with hx | hx
    · cases first with
      | node inner _ _ _ references => exact readsBack below strict inner references x hx
    · exact readsBack further strict legible (fun owned => (List.forall_mem_cons.mp (free owned)).2) x hx

end GrownRow

/-- a node with a legible tree holds nodes with legible trees -/
theorem Node.Contains.legible {n m : Node} (h : n.Contains m) (outer : ∃ t : Tree, t.Legible ∧ Grown t n) :
    ∃ t : Tree, t.Legible ∧ Grown t m := by
  have step : ∀ {n m : Node} {row : List Node}, (∃ t : Tree, t.Legible ∧ Grown t n) → row ∈ n.rows → m ∈ row →
      ∃ t : Tree, t.Legible ∧ Grown t m := by
    rintro n m row ⟨t, legible, grown⟩ hr hm
    cases grown with
    | mk _ _ parts bases =>
      cases legible with
      | node inner =>
        rcases List.mem_append.mp hr with hr | hr
        · exact (parts row hr).member inner m hm
        · exact (bases row hr).member inner m hm
  induction h with
  | part hr hm => exact step outer hr hm
  | within hr hm _ ih => exact ih (step outer hr hm)

/-- a type that occurs is read back -/
theorem TypeExpr.Occurs.readsBack {t : TypeExpr} (h : t.Occurs) : t.ReadsBack := by
  obtain ⟨source, f, d, accepted, parsed, unquoted, n, ⟨e, mem, held⟩, row, hr, ht⟩ := h
  obtain ⟨d', parsed', elements⟩ := SourceFile.elements_of_read accepted
  obtain rfl : d = d' := Except.ok.inj (parsed.symm.trans parsed')
  have grown := @Element.ofTrees_grown (.phrase .file) rfl _ _ elements
  have outer := grown.member (elementTrees_legible parsed unquoted) (.ofElement e) (List.mem_map_of_mem mem)
  obtain ⟨tree, legible, grown⟩ : ∃ t : Tree, t.Legible ∧ Grown t n := by
    rcases held with rfl | inside
    · exact outer
    · exact inside.legible outer
  cases grown with
  | mk _ _ parts _ =>
    cases legible with
    | node inner _ _ _ references => exact (parts row hr).readsBack rfl inner references t ht

/-! ## Variables -/

/-- the declaration of a variable with a type -/
def Text.variable (type : Text) : Text := Text.ofString "declare var v: " ++ type

namespace Derivation

/-- the declaration of a variable `v` with a derivation of its type -/
def variableV (type : Derivation) : Derivation :=
  phrase ambientElement [sign DECLARE, phrase ambientBody [phrase ambientVar [sign VAR, word NAME "v", type]]]

theorem variable_productions : ⟨Nonterminal.element, [.nonterminal ambientElement]⟩ ∈ productions ∧
    ⟨ambientElement, [DECLARE, ambientBody]⟩ ∈ productions ∧ ⟨ambientBody, [.nonterminal ambientVar]⟩ ∈ productions ∧
      ⟨ambientVar, [VAR, NAME, ascription]⟩ ∈ productions := by
  with_unfolding_all decide

theorem tokens_variableV (type : Derivation) : (variableV type).tokens =
    ⟨DECLARE, "declare", .start⟩ :: ⟨VAR, "var", .start⟩ :: ⟨NAME, "v", .start⟩ :: type.tokens := by
  show [_] ++ ((([_] ++ ([_] ++ (type.tokens ++ []))) ++ []) ++ []) = _
  simp only [List.append_nil]
  rfl

/-- it shows as the variable with what the type shows as -/
theorem trees_variableV {type : Derivation} {ts : List Tree} (trees : type.trees = ts) :
    (variableV type).trees = [.node (.phrase ambientElement) Cursor.start.loc
      [.leaf (some DECLARE) "declare" Cursor.start.loc, .node (.phrase ambientVar) Cursor.start.loc
        (.leaf (some NAME) "v" Cursor.start.loc :: ts)]] := by
  have row : treesOf [sign VAR, word NAME "v", type] = .leaf (some NAME) "v" Cursor.start.loc :: ts := by
    rw [← trees, ← List.append_nil type.trees]
    rfl
  have decl : treesOf [phrase ambientVar [sign VAR, word NAME "v", type]] =
      [.node (.phrase ambientVar) Cursor.start.loc (.leaf (some NAME) "v" Cursor.start.loc :: ts)] := by
    rw [← row]
    rfl
  have body : treesOf [phrase ambientBody [phrase ambientVar [sign VAR, word NAME "v", type]]] =
      [.node (.phrase ambientVar) Cursor.start.loc (.leaf (some NAME) "v" Cursor.start.loc :: ts)] := by
    rw [← decl]
    rfl
  rw [← body]
  rfl

section
variable {type : Derivation} {words : List Terminal} (h : IsPart words ascription type)
include h

theorem variableV_valid : (variableV type).Valid := by
  obtain ⟨-, element, body, decl⟩ := variable_productions
  rw [← h.root] at decl
  refine .node element rfl (.cons (.leaf _) (.cons (.node body rfl (.cons (.node decl rfl ?_) .nil)) .nil))
  exact .cons (.leaf _) (.cons (.leaf _) (.cons h.valid .nil))

theorem variableV_parted : (variableV type).Parted .END := by
  have ends : Lookahead.closers.contains .END = true := by decide
  refine .node (.inr ends) (.cons (.leaf _ _) (.cons (.node (.inr ends) (.cons (.node (.inr ends) ?_) (.nil _))) (.nil _)))
  exact .cons (.leaf _ _) (.cons (.leaf _ _) (.cons (h.parted _) (.nil _)))

theorem variableV_unworded : (variableV type).Unworded none := by
  have quiet : Dot.Admits ⟨⟨ambientVar, [VAR, NAME, ascription]⟩, 1⟩ [] := Dot.checked.2 (_, _) (by decide)
  have row : ∀ dot, UnwordedAll dot ⟨ambientVar, [VAR, NAME, ascription]⟩ 0 [sign VAR, word NAME "v", type] :=
    fun dot => ⟨fun e => (nomatch e), fun _ => ⟨_, rfl, quiet.not_isWord (Writes.free_nil _)⟩,
      h.unworded _ fun begins => absurd begins (by decide +kernel), trivial⟩
  rw [← h.root] at row
  exact ⟨fun e => (nomatch e), ⟨row _, trivial⟩, trivial⟩

/-- the declaration of a variable is a line by itself -/
theorem variableV_isLine {text : Text} (written : Written type.tokens text) (apart : text.Apart) {ts : List Tree}
    (trees : type.trees = ts) {t : TypeExpr} (reads : TypeExpr.ascriptionIn ts = .ok (some t)) :
    IsLine (variableV type) (Text.ofString "declare var v" ++ text)
      (.ambientElement Cursor.start.loc false (.variableDecl Cursor.start.loc "v" (some t))) where
  isElement := variable_productions.1
  valid := variableV_valid h
  parted := variableV_parted h
  unworded := variableV_unworded h
  written := by
    have isVar : VAR.Matches "var" [] := .spelled rfl
    have isName : NAME.Matches "v" [] := matches_name (by decide)
    have named : Written (⟨NAME, "v", .start⟩ :: type.tokens) (Text.ofString "v" ++ text) :=
      .lexeme isName (apart.not_begins nofun) written
    rw [tokens_variableV]
    exact .word (.spelled rfl) (.word isVar named)
  decodable := by
    refine decodable_of_noString ?_
    rw [tokens_variableV]
    simp only [List.forall_mem_cons]
    exact ⟨nofun, nofun, nofun, fun t mem => (h.printed t mem).kind.1⟩
  trees := by
    refine ⟨_, trees_variableV trees, ?_⟩
    have ascribed : TypeExpr.ascriptionIn (.leaf (some NAME) "v" Cursor.start.loc :: ts) = .ok (some t) := by
      rw [TypeExpr.ascriptionIn, reads]
    have decl : AmbientDecl.ofTree (.node (.phrase ambientVar) Cursor.start.loc
        (.leaf (some NAME) "v" Cursor.start.loc :: ts)) = .ok (.variableDecl Cursor.start.loc "v" (some t)) := by
      show (TypeExpr.ascriptionIn (.leaf (some NAME) "v" Cursor.start.loc :: ts)).bind
        (fun type => .ok (AmbientDecl.variableDecl Cursor.start.loc "v" type)) = _
      rw [ascribed]
      rfl
    rw [Element.ofTrees, Element.ofNode?, AmbientDecl.firstIn?, AmbientDecl.firstIn?, decl]
    rfl

end

end Derivation

/-- a variable of a type that is read back is read with the type, all places being the first one -/
theorem TypeExpr.ReadsBack.variable {t : TypeExpr} (h : t.ReadsBack) :
    ∃ d, SourceFile.ReadsTo (Text.variable t.render) [.ambientElement Cursor.start.loc false
      (.variableDecl Cursor.start.loc "v" (some (t.moved Loc.first)))] d := by
  obtain ⟨cs, writes, first⟩ := h.typed
  obtain ⟨type, isPart, written, trees⟩ := (writes []).exists_part
  have ascribes : Ascribes [.node (.phrase ascription) Cursor.start.loc cs] (some (t.moved Loc.first)) :=
    .inr ⟨cs, _, rfl, first, rfl⟩
  -- the type stands at the first place already
  have unplaced := TypeExpr.ascriptionIn_moved Loc.first _ _ ascribes.ascriptionIn
  rw [(writes []).movedAll_first, ascribes.ascriptionIn] at unplaced
  have line := Derivation.variableV_isLine isPart written (Text.apart_cons (by decide) _) trees ascribes.ascriptionIn
  obtain ⟨d, reads⟩ := line.readsTo
  refine ⟨d, ?_⟩
  rw [Element.moved, AmbientDecl.moved, ← Except.ok.inj unplaced] at reads
  exact reads

namespace TypeExpr

/-- **What is printed of a type is read back, and types that are printed in the same way are the same but for their
places: any type that stands as an annotation in a file that is read, if no name of a member in the file is a
string literal.** -/
theorem read_render_type {t : TypeExpr} (h : t.Occurs) :
    (∃ g, SourceFile.read (Text.variable t.render) = .ok g ∧ g.unplaced = ⟨[.ambientElement Cursor.start.loc false
      (.variableDecl Cursor.start.loc "v" (some (t.moved Loc.first)))]⟩) ∧
    ∀ u : TypeExpr, u.Occurs → u.render = t.render → u.moved Loc.first = t.moved Loc.first := by
  obtain ⟨d, reads⟩ := h.readsBack.variable
  obtain ⟨g, done, alike⟩ := reads.read
  refine ⟨⟨g, done, alike⟩, fun u hu same => ?_⟩
  obtain ⟨d', reads'⟩ := hu.readsBack.variable
  obtain ⟨g', done', alike'⟩ := reads'.read
  rw [same, done] at done'
  cases done'
  rw [alike] at alike'
  simp only [SourceFile.mk.injEq, List.cons.injEq, and_true, Element.ambientElement.injEq, true_and,
    AmbientDecl.variableDecl.injEq, Option.some.injEq] at alike'
  exact alike'.symm

open Typings.Derivation in
/-- a variable of an object type that is written as it is printed -/
def variableOfObject : Derivation :=
  let array (element : Derivation) (offset : Nat) : Derivation :=
    phrase arrayType [phrase primaryType [element], signAt offset LSQB, signAt (offset + 1) RSQB]
  let ascribed (offset : Nat) (d : Derivation) : Derivation := phrase ascription [signAt offset COLON, primary d]
  let bound := phrase typeReference [phrase entityName
    [wordAt 29 NAME "b", phrase moreSegments [signAt 30 DOT, wordAt 31 NAME "c"]]]
  let typeParams := phrase typeParameters
    [signAt 18 LESSTHAN, phrase typeParameter [wordAt 19 NAME "T", signAt 21 EXTENDS, primary bound], signAt 32 MORETHAN]
  let element := phrase typeReference [phrase entityName [wordAt 38 NAME "T"]]
  let optional := phrase parameter [wordAt 34 NAME "y", signAt 35 QMARK, ascribed 36 (array element 39)]
  let rest := phrase restParameter
    [signAt 43 ELLIPSIS, wordAt 46 NAME "z", ascribed 47 (array (phrase predefinedType [signAt 49 ANY]) 52)]
  let params := phrase parameterList
    [phrase anyParameter [optional], phrase moreParameters [signAt 41 COMMA, phrase anyParameter [rest]]]
  let method := phrase methodSignature [phrase propertyName [wordAt 17 NAME "f"], phrase callSignature
    [typeParams, signAt 33 LPAR, params, signAt 54 RPAR, ascribed 55 (phrase predefinedType [signAt 57 VOID])]]
  let function := phrase functionType
    [signAt 76 LPAR, signAt 77 RPAR, signAt 79 ARROW, primary (phrase predefinedType [signAt 82 ANY])]
  let index := phrase indexSignature [signAt 63 LSQB, wordAt 64 NAME "k", signAt 65 COLON,
    primary (phrase predefinedType [signAt 67 STRINGTYPE]), signAt 73 RSQB,
    phrase ascription [signAt 74 COLON, phrase typeExpr [function]]]
  let members := phrase objectMembers [phrase objectMembers [phrase typeMember [method],
    phrase memberSeparator [signAt 61 SEMICOLON]], phrase typeMember [index]]
  single (phrase ambientElement [signAt 0 DECLARE, phrase ambientBody [phrase ambientVar [signAt 8 VAR,
    wordAt 12 NAME "x", ascribed 13 (phrase objectType [signAt 15 LBRACE, members, signAt 86 RBRACE])]]])

theorem parse_variableOfObject : parse
    "declare var x: \x7b f<T extends b.c>(y?: T[], ...z: any[]): void; [k: string]: () => any \x7d" =
      .ok variableOfObject :=
  parse_of_stand (by decide +kernel) rfl (by decide +kernel) (by decide)

theorem read_render_type_object :
    let t : TypeExpr := .object ⟨1, 16⟩ [
      .method ⟨1, 18⟩ "f" (.mk [.mk "T" (some (.reference ⟨1, 30⟩ "b.c" []))]
        [.single ⟨1, 35⟩ "y" (some (.array ⟨1, 39⟩ (.reference ⟨1, 39⟩ "T" []))) true none,
          .rest ⟨1, 44⟩ "z" (some (.array ⟨1, 50⟩ (.predefined ⟨1, 50⟩ "any")))]
        (some (.predefined ⟨1, 58⟩ "void"))) false,
      .index ⟨1, 64⟩ "k" (.predefined ⟨1, 68⟩ "string") (.function ⟨1, 77⟩ [] [] (.predefined ⟨1, 83⟩ "any"))]
    t.Occurs ∧
      t.render = Text.ofString "\x7b f<T extends b.c>(y?: T[], ...z: any[]): void; [k: string]: () => any \x7d" ∧
      ∃ g, SourceFile.read (Text.variable t.render) = .ok g ∧ g.unplaced = ⟨[.ambientElement Cursor.start.loc false
        (.variableDecl Cursor.start.loc "v" (some (t.moved Loc.first)))]⟩ := by
  intro t
  let f : SourceFile := ⟨[.ambientElement ⟨1, 1⟩ false (.variableDecl ⟨1, 9⟩ "x" (some t))]⟩
  have accepted : SourceFile.read
      "declare var x: \x7b f<T extends b.c>(y?: T[], ...z: any[]): void; [k: string]: () => any \x7d" = .ok f :=
    SourceFile.read_of_elements parse_variableOfObject rfl
  have unquoted : variableOfObject.Unquoted := by
    simp [variableOfObject, Derivation.single, Derivation.primary, Derivation.phrase, Derivation.wordAt,
      Derivation.signAt, Derivation.root, Derivation.Unquoted, Derivation.UnquotedAll]
  have annotates : f.Annotates t := by
    refine ⟨.ambient (.variableDecl ⟨1, 9⟩ "x" (some t)), ⟨_, List.mem_cons_self, .inr ?_⟩, _,
      List.mem_cons_self, List.mem_cons_self⟩
    exact .part List.mem_cons_self List.mem_cons_self
  have occurs : t.Occurs := ⟨_, _, _, accepted, parse_variableOfObject, unquoted, annotates⟩
  exact ⟨occurs, by decide +kernel, (read_render_type occurs).1⟩

end TypeExpr

end Typings
