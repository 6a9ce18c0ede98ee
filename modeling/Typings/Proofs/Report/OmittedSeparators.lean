import Typings.Proofs.Declaration.PropertyLines
import Typings.Proofs.Report.KeywordNames
import Typings.Proofs.Syntax.Refusing
/-!
# Separators left out

An interface is written with its properties one a line.  With a separator behind each it is read, whatever the
names are.  Without separators it is read only if no name is a keyword that may come behind the type in the line
above: such a name is read as the keyword, which does not fit.

* `Derivation.IsBody`                    the braces with the lines between them;
* `PlainProperty.written_lines`          the text of the interface;
* `PlainProperty.read_lines`             it is read if each name can stand behind the type in the line above;
* `PlainProperty.parse_lines_of_break`   else it is not;
* `SourceFile.read_propertyLines`        the main result.
-/

namespace Typings
open Terminal Nonterminal

/-! ## Derivations -/

namespace Derivation

/-- the derivation of lines of properties in braces -/
structure IsBody (marked : Bool) (ps : List PlainProperty) (d : Derivation) : Prop where
  root : d.root = .nonterminal objectType
  valid : d.Valid
  ended : d.Ended END
  unworded : ∀ dot, d.Unworded dot
  tokens : d.tokens = ⟨LBRACE, "\x7b", .start⟩ ::
    (ps.flatMap (PlainProperty.lineTokens marked NAME) ++ [⟨RBRACE, "\x7d", .start⟩])
  trees : d.trees = [.node (.phrase objectType) Cursor.start.loc (ps.flatMap fun p => p.derivation.trees)]

theorem isBody_nil (marked : Bool) : IsBody marked [] (phrase objectType [sign LBRACE, sign RBRACE]) where
  root := rfl
  valid := .node (Production.ends_around (by decide)).1 rfl (.cons (.leaf _) (.cons (.leaf _) .nil))
  ended := .node (Production.ends_around (by decide)).2 (.cons (.leaf _ _) (.cons (.leaf _ _) (.nil _)))
  unworded _ := ⟨nofun, nofun, trivial⟩
  tokens := rfl
  trees := rfl

theorem IsRow.isBody {marked : Bool} {ps : List PlainProperty} {m : Derivation} (h : IsRow marked ps m) :
    IsBody marked ps (phrase objectType [sign LBRACE, m, sign RBRACE]) := by
  obtain ⟨isProduction, ends⟩ :=
    Production.ends_around (p := ⟨objectType, [LBRACE, objectMembers, RBRACE]⟩) (by decide)
  have admits := brace_admits
  rw [← h.root] at isProduction ends admits
  exact {
    root := rfl
    valid := .node isProduction rfl (.cons (.leaf _) (.cons h.valid (.cons (.leaf _) .nil)))
    ended := .node ends (.cons (.leaf _ _) (.cons (h.ended RBRACE (by decide)) (.cons (.leaf _ _) (.nil _))))
    unworded := fun _ => ⟨nofun, h.unworded _ admits, nofun, trivial⟩
    tokens := by
      rw [tokens_phrase, tokensOf, tokensOf, tokensOf_singleton, h.tokens]
      rfl
    trees := by
      show [Tree.node _ _ (treesOf [sign LBRACE, m, sign RBRACE])] = _
      rw [treesOf, treesOf, treesOf, h.trees, trees_sign rfl, trees_sign rfl]
      exact congrArg (fun ts => [Tree.node (.phrase objectType) Cursor.start.loc ts]) (List.append_nil _) }

theorem exists_body (marked : Bool) {ps : List PlainProperty}
    (joins : marked = true ∨ ps.IsChain PlainProperty.Joins) : ∃ d, IsBody marked ps d := by
  by_cases none : ps = []
  · subst none
    exact ⟨_, isBody_nil marked⟩
  · obtain ⟨m, isRow⟩ := exists_row marked none joins
    exact ⟨_, isRow.isBody⟩

/-- the file with an interface named `I` -/
def ofBody (body : Derivation) : Derivation :=
  single (phrase interfaceElement [phrase interfaceDeclaration [sign INTERFACE, word NAME "I", body]])

theorem not_isWord_I (u : Terminal) : u.isWord "I" = false :=
  (by decide : ∀ u ∈ Terminal.all, u.isWord "I" = false) u u.mem_all

namespace IsBody
variable {marked : Bool} {ps : List PlainProperty} {body : Derivation} (h : IsBody marked ps body)
include h

theorem valid_ofBody : (ofBody body).Valid := by
  have isProduction := fun p mem => (Production.ends_around (p := p) mem).1
  have isDeclaration := isProduction ⟨interfaceDeclaration, [INTERFACE, NAME, objectType]⟩ (by decide)
  rw [← h.root] at isDeclaration
  refine single_valid (isProduction ⟨Nonterminal.element, [.nonterminal interfaceElement]⟩ (by decide)) ?_
  exact .node (isProduction ⟨interfaceElement, [.nonterminal interfaceDeclaration]⟩ (by decide)) rfl
    (.cons (.node isDeclaration rfl (.cons (.leaf _) (.cons (.leaf _) (.cons h.valid .nil)))) .nil)

theorem ended_ofBody : (ofBody body).Ended END := by
  have ends := fun p mem => (Production.ends_around (p := p) mem).2
  have declaration := ends ⟨interfaceDeclaration, [INTERFACE, NAME, objectType]⟩ (by decide)
  rw [← h.root] at declaration
  have inner : Ended (phrase interfaceDeclaration [sign INTERFACE, word NAME "I", body]) END :=
    .node declaration (.cons (.leaf _ _) (.cons (.leaf _ _) (.cons h.ended (.nil _))))
  exact .node (ends ⟨file, [.nonterminal fileElements]⟩ (by decide)) (.cons
    (.node (ends ⟨fileElements, [.nonterminal Nonterminal.element]⟩ (by decide)) (.cons
      (.node (ends ⟨Nonterminal.element, [.nonterminal interfaceElement]⟩ (by decide)) (.cons
        (.node (ends ⟨interfaceElement, [.nonterminal interfaceDeclaration]⟩ (by decide))
          (.cons inner (.nil _))) (.nil _))) (.nil _))) (.nil _))

theorem unworded_ofBody : (ofBody body).Unworded none := by
  have named : Unworded (some ⟨⟨interfaceDeclaration, [sign INTERFACE, word NAME "I", body].map Derivation.root⟩, 1⟩)
      (word NAME "I") := fun _ => ⟨_, rfl, fun u _ => not_isWord_I u⟩
  exact ⟨⟨⟨⟨⟨nofun, named, h.unworded _, trivial⟩, trivial⟩, trivial⟩, trivial⟩, trivial⟩

/-- the interface is read from its trees -/
theorem ofTrees_ofBody : Element.ofTrees (ofBody body).elementTrees = .ok [.interfaceElement Cursor.start.loc false
    ⟨Cursor.start.loc, "I", [], [], ps.map PlainProperty.member⟩] := by
  have empty : TypeMember.ofTrees [] = .ok [] := by rw [TypeMember.ofTrees]
  have reads := Tree.readsAs_flatMap empty fun p (_ : p ∈ ps) => p.readsAs_trees
  rw [← Element.ofTrees_interface reads, ofBody, elementTrees_single]
  show [Tree.node _ _ [Tree.node _ _ (_ :: treesOf [body])]] = _
  rw [treesOf, h.trees]
  rfl

end IsBody

end Derivation

/-! ## Texts -/

namespace PlainProperty
open Typings.Derivation

/-- what stands in front of the lines -/
def opening : List Token := [⟨INTERFACE, "interface", .start⟩, ⟨NAME, "I", .start⟩, ⟨LBRACE, "\x7b", .start⟩]

theorem written_opening : Written opening (Text.ofString "interface I \x7b") := by
  have isInterface : INTERFACE.Matches "interface" [] := .spelled rfl
  have isName : NAME.Matches "I" [] := matches_name (by decide)
  have isBrace : LBRACE.Matches "\x7b" [] := .spelled rfl
  exact .word isInterface (.word isName (.one isBrace))

/-- the tokens of a line, in its text -/
theorem written_lineTokens (marked : Bool) {kind : Terminal} (p : PlainProperty) (isToken : kind.Matches p.name [])
    (other : kind ≠ EQUAL) : Written (p.lineTokens marked kind) (p.text ++ Text.when marked ";") := by
  obtain ⟨isType, otherType⟩ := p.type.isToken
  have isColon : COLON.Matches ":" [] := .spelled rfl
  have isQuestion : QMARK.Matches "?" [] := .spelled rfl
  have typed : Written (⟨p.type.lastKind, p.type.text, .start⟩ :: if marked then [⟨SEMICOLON, ";", .start⟩] else [])
      (p.type.text ++ Text.when marked ";") := by
    cases marked with
    | false => exact .lexeme isType Text.not_begins_nil .nil
    | true =>
      have isMark : SEMICOLON.Matches ";" [] := .spelled rfl
      exact .lexeme isType ((Text.apart_cons (by decide) _).not_begins otherType) (.one isMark)
  have ascribed : Written (⟨COLON, ":", .start⟩ :: _) _ := .word isColon typed
  have split : p.text ++ Text.when marked ";" = p.name ++ (Text.when p.optional "?" ++
      (Text.ofString ":" ++ (Text.ofString " " ++ (p.type.text ++ Text.when marked ";")))) := by
    rw [text]
    simp only [List.append_assoc]
    rfl
  rw [split, lineTokens, tokens]
  cases p.optional with
  | false => exact .lexeme isToken ((Text.apart_cons (by decide) _).not_begins other) ascribed
  | true =>
    have question : Written (⟨QMARK, "?", .start⟩ :: _) _ :=
      .lexeme isQuestion ((Text.apart_cons (by decide) _).not_begins (by decide)) ascribed
    exact .lexeme isToken ((Text.apart_cons (by decide) _).not_begins other) question

/-- a line feed makes no lexeme longer -/
theorem goesOn_lineFeed (k : Terminal) : k.goesOn (.scalar '\n') = false := by
  cases k <;> decide

/-- the tokens of the lines, in the text of the interface -/
theorem written_lines (marked : Bool) {rows : List (Terminal × PlainProperty)}
    (h : ∀ r ∈ rows, r.1.Matches r.2.name [] ∧ r.1 ≠ EQUAL) :
    Written (opening ++ (rows.flatMap (fun r => r.2.lineTokens marked r.1) ++ [⟨RBRACE, "\x7d", .start⟩]))
      (lines marked (rows.map Prod.snd)) := by
  have isRight : RBRACE.Matches "\x7d" [] := .spelled rfl
  have isBlank : ∀ x ∈ Text.ofString "\n", x.isBlank = true := by decide
  have closing : Written [⟨RBRACE, "\x7d", .start⟩] (Text.ofString "\n\x7d") :=
    (Written.one isRight).behind_blank isBlank
  have apart : ∀ (k : Terminal) (t : Text), ¬ (Text.ofString "\n" ++ t).Begins k.goesOn := fun k t =>
    Text.not_begins_cons (goesOn_lineFeed k) t
  cases rows with
  | nil =>
    exact written_opening.append (closing.behind_blank isBlank) fun t _ => apart t.kind _
  | cons first rows =>
    have split : lines marked ((first :: rows).map Prod.snd) = Text.ofString "interface I \x7b" ++
        (first :: rows).flatMap (fun r => Text.ofString "\n" ++ (r.2.text ++ Text.when marked ";")) ++
          Text.ofString "\n\x7d" := by
      rw [lines, List.map_cons, List.map_cons, Text.join_cons_flatMap, List.flatMap_cons, List.map_map,
        List.flatMap_map]
      simp only [List.append_assoc]
      rfl
    have each : ∀ r ∈ first :: rows, Written (r.2.lineTokens marked r.1)
        (Text.ofString "\n" ++ (r.2.text ++ Text.when marked ";")) := fun r mem =>
      (written_lineTokens marked r.2 (h r mem).1 (h r mem).2).behind_blank isBlank
    have all := written_opening.flatMap (P := fun _ => True) (g := fun r => Text.ofString "\n" ++ _)
      (fun _ _ => trivial) each (fun _ _ _ _ => trivial) fun _ _ k _ => apart k _
    rw [split, ← List.append_assoc]
    exact all.append closing fun t _ => apart t.kind _

/-! ## Lines that are read -/

theorem map_snd_names (ps : List PlainProperty) : (ps.map (NAME, ·)).map Prod.snd = ps := by
  rw [List.map_map]
  exact List.map_id'' (fun _ => rfl) ps

/-- names are lexemes -/
theorem matches_names (ps : List PlainProperty) : ∀ r ∈ ps.map (NAME, ·), r.1.Matches r.2.name [] ∧ r.1 ≠ EQUAL :=
  List.forall_mem_map.mpr fun p _ => ⟨matches_name p.isName, nofun⟩

/-- the only declaration of the interface -/
def declared (ps : List PlainProperty) : SourceFile := ⟨[.interfaceElement Cursor.start.loc false
  ⟨Cursor.start.loc, "I", [], [], ps.map member⟩]⟩

theorem moved_member (p : PlainProperty) : p.member.moved Loc.first = p.member := by
  obtain ⟨name, _, _, optional, type⟩ := p
  cases type <;> rfl

/-- the lines are read as the properties, if each name can stand behind the type in the line above -/
theorem read_lines (marked : Bool) {ps : List PlainProperty} (joins : marked = true ∨ ps.IsChain Joins) :
    ∃ f, SourceFile.read (lines marked ps) = .ok f ∧ f.unplaced = declared ps := by
  obtain ⟨body, h⟩ := exists_body marked joins
  obtain ⟨states, leads⟩ := leads_of_ended h.valid_ofBody rfl h.ended_ofBody
  have tokens : (ofBody body).tokens =
      opening ++ (ps.flatMap (lineTokens marked NAME) ++ [⟨RBRACE, "\x7d", .start⟩]) := by
    rw [ofBody, tokens_single, tokens_phrase, tokensOf_singleton, tokens_phrase, tokensOf, tokensOf,
      tokensOf_singleton, h.tokens]
    rfl
  have written : Written (ofBody body).tokens (lines marked ps) := by
    have all := written_lines marked (matches_names ps)
    rwa [List.flatMap_map, map_snd_names, ← tokens] at all
  have decodable : ∀ t ∈ (ofBody body).tokens, t.kind ≠ STRING := by
    rw [tokens]
    refine List.forall_mem_append.mpr ⟨by decide, List.forall_mem_append.mpr ⟨fun t mem => ?_, by decide⟩⟩
    obtain ⟨p, _, mem⟩ := List.mem_flatMap.mp mem
    exact p.lineTokens_ne_string marked t mem
  obtain ⟨d, readsTo⟩ := SourceFile.readsTo_of_written leads h.unworded_ofBody written
    (decodable_of_noString decodable) h.ofTrees_ofBody
  obtain ⟨f, done, unplaced⟩ := readsTo.read
  refine ⟨f, done, unplaced.trans ?_⟩
  have members : TypeMember.movedAll Loc.first (ps.map member) = ps.map member := by
    rw [TypeMember.movedAll_eq_map, List.map_map]
    exact List.map_congr_left fun p _ => p.moved_member
  show SourceFile.mk [.interfaceElement _ false ⟨_, _, [], [], TypeMember.movedAll Loc.first _⟩] = _
  rw [members]
  rfl

end PlainProperty

/-! ## Lines that are not read -/

/-- a row that is no chain is one up to a place -/
theorem exists_break_of_not_isChain {α : Type} {R : α → α → Prop} {l : List α} (h : ¬ l.IsChain R) :
    ∃ above a b below, l = above ++ b :: below ∧ above.IsChain R ∧ above.getLast? = some a ∧ ¬ R a b := by
  induction l using List.reverseRecOn with
  | nil => exact absurd .nil h
  | append_singleton l b ih =>
    by_cases chain : l.IsChain R
    · obtain ⟨a, isLast, no⟩ : ∃ a ∈ l.getLast?, ¬ R a b := by
        by_contra all
        push Not at all
        exact h (List.isChain_append.mpr ⟨chain, .singleton b, fun a isLast _ isHead => by
          cases isHead
          exact all a isLast⟩)
      exact ⟨l, a, b, [], rfl, chain, isLast, no⟩
    · obtain ⟨above, a, b', below, rfl, isChain, isLast, no⟩ := ih chain
      exact ⟨above, a, b', below ++ [b], List.append_assoc .., isChain, isLast, no⟩

namespace PlainProperty
open Typings.Derivation

theorem plain_opening : ∀ t ∈ opening, t.kind = NAME → ∀ u : Terminal, u.isWord t.text = false :=
  List.forall_mem_cons.mpr ⟨nofun, List.forall_mem_cons.mpr
    ⟨fun _ => not_isWord_I, List.forall_mem_singleton.mpr nofun⟩⟩

open Automaton in
/-- the state in front of the lines -/
theorem exists_brace : ∃ state first, walk? 0 (opening.map fun t => .terminal t.kind) = some state ∧
    Item state first ⟨objectType, [LBRACE, objectMembers, RBRACE]⟩ 1 := by
  have isProduction := fun p mem => (Production.ends_around (p := p) mem).1
  obtain ⟨_, ofFile⟩ := item_of_file rfl (isProduction ⟨file, [.nonterminal fileElements]⟩ (by decide))
  obtain ⟨_, elements⟩ := ofFile.enter rfl
    (isProduction ⟨fileElements, [.nonterminal Nonterminal.element]⟩ (by decide))
  obtain ⟨_, element⟩ := elements.enter rfl
    (isProduction ⟨Nonterminal.element, [.nonterminal interfaceElement]⟩ (by decide))
  obtain ⟨_, interface⟩ := element.enter rfl
    (isProduction ⟨interfaceElement, [.nonterminal interfaceDeclaration]⟩ (by decide))
  obtain ⟨_, declaration⟩ := interface.enter rfl
    (isProduction ⟨interfaceDeclaration, [INTERFACE, NAME, objectType]⟩ (by decide))
  obtain ⟨named, front, item⟩ := declaration.exists_walk [INTERFACE, NAME] rfl
  obtain ⟨_, object⟩ := item.enter rfl (isProduction ⟨objectType, [LBRACE, objectMembers, RBRACE]⟩ (by decide))
  obtain ⟨state, step⟩ := object.next rfl
  refine ⟨state, _, ?_, object.advance rfl step⟩
  have whole := walk?_append [.terminal LBRACE] front
  rw [walk?, step] at whole
  exact whole

/-- **Lines without separators are not read if a name is a keyword that may come behind the type in the line
above.** -/
theorem parse_lines_of_break {ps : List PlainProperty} (h : ¬ ps.IsChain Joins) :
    ∃ e, parse (lines false ps) = .error e := by
  obtain ⟨above, p, q, below, rfl, joins, isLast, no⟩ := exists_break_of_not_isChain h
  obtain ⟨u, mem, isWord⟩ : ∃ u ∈ p.type.followers, u.isWord q.name = true := by
    simpa [Joins] using no
  have isFollower := p.type.followers_subset mem
  have others : ∀ u ∈ behindReference, u ≠ NAME ∧ u ≠ EQUAL := by decide
  obtain ⟨m, isRow⟩ := exists_row false (by rintro rfl; cases isLast) (.inr joins)
  obtain ⟨state, first, walk, item⟩ := exists_brace
  obtain ⟨-, -, -, -, -, -, -, unread, ends⟩ := Production.lines_checked
  have rows : ∀ r ∈ above.map (NAME, ·) ++ (u, q) :: below.map (NAME, ·),
      r.1.Matches r.2.name [] ∧ r.1 ≠ EQUAL :=
    List.forall_mem_append.mpr ⟨matches_names _, List.forall_mem_cons.mpr
      ⟨⟨matches_of_isWord isWord, (others u isFollower).2⟩, matches_names below⟩⟩
  have written := written_lines false rows
  rw [List.map_append, map_snd_names, List.map_cons, map_snd_names, List.flatMap_append, List.flatMap_map,
    List.flatMap_cons, ← isRow.tokens, List.append_assoc] at written
  exact parse_of_refusal walk plain_opening item (by rw [isRow.root]; rfl) rfl isRow.valid
    (isRow.ended RBRACE (by decide)) (isRow.unworded _ brace_admits) written (others u isFollower).1
    ⟨_, isRow.behind p isLast _ _, fun _ behind => p.type.acts_behind mem behind⟩ (unread u isFollower)
    fun r isProduction follows => ends r isProduction follows u isFollower

end PlainProperty

/-! ## Both -/

namespace SourceFile
open PlainProperty

/-- **Properties one a line are read with a separator behind each.  Without separators they are read as the same
members exactly if no name is a keyword that may come behind the type in the line above; else the text is a
syntax error.** -/
theorem read_propertyLines (ps : List PlainProperty) :
    (∃ f, read (lines true ps) = .ok f ∧ f.unplaced = declared ps) ∧
    ((∃ f, read (lines false ps) = .ok f ∧ f.unplaced = declared ps) ↔ ps.IsChain Joins) ∧
    ((∃ e, read (lines false ps) = .error (.syntaxError e)) ↔ ¬ ps.IsChain Joins) := by
  have joined : ps.IsChain Joins → ∃ f, read (lines false ps) = .ok f ∧ f.unplaced = declared ps :=
    fun joins => read_lines false (.inr joins)
  have broken : ¬ ps.IsChain Joins → ∃ e, read (lines false ps) = .error (.syntaxError e) := fun no =>
    (parse_lines_of_break no).imp fun _ => read_of_parse_error
  refine ⟨read_lines true (.inl rfl), ⟨?_, joined⟩, ⟨?_, broken⟩⟩
  · rintro ⟨f, done, _⟩
    by_contra no
    obtain ⟨e, failed⟩ := broken no
    rw [done] at failed
    cases failed
  · rintro ⟨e, failed⟩ joins
    obtain ⟨f, done, _⟩ := joined joins
    rw [done] at failed
    cases failed

/-- a property named `declare` behind one of a type that is named -/
def declareBehindName : List PlainProperty := [
  ⟨"a", by decide, by decide, false, .reference "Foo" (by decide) fun u =>
    (by decide : ∀ u ∈ Terminal.all, u.isWord "Foo" = false) u u.mem_all⟩,
  ⟨"declare", by decide, by decide, false, .predefined NUMBER (by decide)⟩]

/-- it is read with separators, and not without them -/
theorem read_declareBehindName :
    lines true declareBehindName = Text.ofString "interface I \x7b\na: Foo;\ndeclare: number;\n\x7d" ∧
    (∃ f, read (lines true declareBehindName) = .ok f ∧ f.unplaced = declared declareBehindName) ∧
    lines false declareBehindName = Text.ofString "interface I \x7b\na: Foo\ndeclare: number\n\x7d" ∧
    ∃ e, read (lines false declareBehindName) = .error (.syntaxError e) := by
  have no : ¬ declareBehindName.IsChain Joins := by decide
  exact ⟨by decide, read_lines true (.inl rfl), by decide,
    (parse_lines_of_break no).imp fun _ => read_of_parse_error⟩

end SourceFile

end Typings
