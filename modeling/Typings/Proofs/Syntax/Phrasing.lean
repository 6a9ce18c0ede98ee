import Typings.Declaration.Print
import Typings.Proofs.Declaration.Reads
import Typings.Proofs.Syntax.Composing
import Typings.Proofs.Syntax.Lexemes
/-!
# The phrases of imports and exports

Dotted names and lists of bindings are printed on one line.  Here are the derivations of what is printed:
their texts, and the trees that they show as.

* `Derivation.entity`       a dotted name;
* `Derivation.binding`      a name, and the name that it gets;
* `Derivation.bindings`     bindings in braces.
-/

namespace Typings
open Terminal Nonterminal

/-- a name does not begin with a dot -/
theorem Text.not_begins_of_isName {name : Text} (h : name.isName = true) : ¬ name.Begins DOT.goesOn := by
  cases name with
  | nil => exact not_begins_nil
  | cons x more =>
    rw [begins_cons, Terminal.goesOn, beq_iff_eq]
    rintro rfl
    rw [isName, Bool.and_eq_true] at h
    exact absurd h.1 (by decide)

namespace Derivation

theorem separates_segments : Separates moreSegments DOT NAME := .of_mem (by decide)

theorem separates_bindings : Separates moreBindings COMMA binding := .of_mem (by decide)

theorem isPart_names (names : List Text) :
    ∀ d ∈ names.map (word NAME), IsPart (Symbol.terminal NAME).openingWords NAME d :=
  List.forall_mem_map.mpr fun _ _ => isPart_name fun _ h => absurd h List.not_mem_nil

/-! ## Dotted names -/

/-- the derivation of a dotted name -/
def entity (names : List Text) : Derivation :=
  phrase entityName (series moreSegments DOT (names.map (word NAME)))

theorem trees_names (names : List Text) :
    (names.map (word NAME)).flatMap trees = names.map fun n => .leaf (some NAME) n Cursor.start.loc := by
  induction names with
  | nil => rfl
  | cons n names ih =>
    rw [List.map_cons, List.flatMap_cons, ih]
    rfl

section
variable (first : Text) (more : List Text)

theorem isPart_entity {words : List Terminal} (free : ∀ u ∈ words, u.isWord first = false) :
    IsPart words entityName (entity (first :: more)) := by
  have kept : ∀ roots ∈ ([[NAME], [NAME, moreSegments]] : List (List Symbol)),
      ⟨entityName, roots⟩ ∈ separated := by
    with_unfolding_all decide
  have names := isPart_names (first :: more)
  refine isPart_phrase (kept _ (roots_series separates_segments names)) (by decide)
    (isPart_series separates_segments names) ?_
  have head : (series moreSegments DOT ((first :: more).map (word NAME))).head? = some (word NAME first) := by
    cases more <;> rfl
  rw [head]
  rintro d ⟨⟩
  exact isPart_name free

theorem treesOf_entity : treesOf [entity (first :: more)] = [.node (.phrase entityName) Cursor.start.loc
    ((first :: more).map fun n => .leaf (some NAME) n Cursor.start.loc)] := by
  have start : (entity (first :: more)).loc = Cursor.start.loc := by
    cases more <;> rfl
  rw [← trees_names, ← trees_series separates_segments, ← start]
  rfl

theorem tokens_entity : (entity (first :: more)).tokens =
    ⟨NAME, first, .start⟩ :: more.flatMap fun n => (sign DOT).tokens ++ (word NAME n).tokens := by
  rw [entity, tokens_phrase, List.map_cons, tokens_series, List.flatMap_map]
  rfl

/-- the text of a dotted name -/
theorem written_entity (names : ∀ n ∈ first :: more, n.isName = true) :
    Written (entity (first :: more)).tokens (Text.join "." (first :: more)) := by
  obtain ⟨isName, further⟩ := List.forall_mem_cons.mp names
  have front : Written [⟨NAME, first, .start⟩] first := .one (matches_name isName)
  rw [tokens_entity, Text.join_cons_flatMap]
  refine front.flatMap (P := (· = NAME)) (by rintro t ⟨⟩; rfl) (fun n hn => ?_)
    (by rintro n _ t ⟨⟩; rfl) fun n _ k isName => ?_
  · have name := further n hn
    exact .lexeme (.spelled rfl) (Text.not_begins_of_isName name) (.one (matches_name name))
  · rw [isName]
    exact Text.not_begins_cons (by decide) n

end

/-! ## Bindings -/

/-- the derivation of a binding -/
def binding (b : Binding) : Derivation :=
  phrase .binding (word NAME b.name :: b.renamed.elim [] fun r => [sign AS, word NAME r])

/-- the derivation of bindings in braces -/
def bindings (bs : List Binding) : Derivation :=
  phrase namedBindings (sign LBRACE :: (series moreBindings COMMA (bs.map binding) ++ [sign RBRACE]))

theorem isPart_binding (b : Binding) : IsPart [] Nonterminal.binding (binding b) := by
  obtain ⟨name, renamed⟩ := b
  have free : ∀ name : Text, IsPart [] NAME (word NAME name) :=
    fun _ => isPart_name fun _ h => absurd h List.not_mem_nil
  cases renamed with
  | none =>
    have kept : ⟨Nonterminal.binding, [NAME]⟩ ∈ separated := by with_unfolding_all decide
    exact isPart_phrase kept (by decide) (List.forall_mem_singleton.mpr (free name))
      (by rintro d ⟨⟩; exact free name)
  | some r =>
    have kept : ⟨Nonterminal.binding, [NAME, AS, NAME]⟩ ∈ separated := by with_unfolding_all decide
    exact isPart_phrase kept (by decide) (List.forall_mem_cons.mpr ⟨free name, List.forall_mem_cons.mpr
        ⟨isPart_sign (by decide) _, List.forall_mem_singleton.mpr (free r)⟩⟩)
      (by rintro d ⟨⟩; exact free name)

theorem isPart_bindingRow (bs : List Binding) :
    ∀ d ∈ bs.map binding, IsPart (Symbol.nonterminal .binding).openingWords Nonterminal.binding d :=
  List.forall_mem_map.mpr fun b _ => isPart_binding b

section
variable (bs : List Binding)

theorem isPart_bindings (words : List Terminal) : IsPart words namedBindings (bindings bs) := by
  have kept : ∀ roots ∈ ([[], [Nonterminal.binding], [Nonterminal.binding, moreBindings]] :
      List (List Symbol)), ⟨namedBindings, LBRACE :: (roots ++ [.terminal RBRACE])⟩ ∈ separated := by
    with_unfolding_all decide
  have row : (series moreBindings COMMA (bs.map binding)).map root ∈
      ([[], [Nonterminal.binding], [Nonterminal.binding, moreBindings]] : List (List Symbol)) := by
    cases bs with
    | nil => exact List.mem_cons_self
    | cons b bs =>
      exact List.mem_cons_of_mem _ (roots_series separates_bindings (isPart_bindingRow (b :: bs)))
  refine isPart_marked ?_ (by decide) (by decide +kernel) (List.forall_mem_cons.mpr
    ⟨isPart_sign (by decide) _, List.forall_mem_append.mpr
      ⟨isPart_series separates_bindings (isPart_bindingRow bs),
        List.forall_mem_singleton.mpr (isPart_sign (by decide) _)⟩⟩)
  rw [List.map_cons, List.map_append]
  exact kept _ row

theorem treesOf_bindings : treesOf [bindings bs] = [.node (.phrase namedBindings) Cursor.start.loc
    (bs.flatMap fun b => (binding b).trees)] := by
  have inner : treesOf (series moreBindings COMMA (bs.map binding) ++ [sign RBRACE]) =
      bs.flatMap fun b => (binding b).trees := by
    rw [treesOf_append, trees_series separates_bindings, List.flatMap_map]
    exact List.append_nil _
  rw [← inner]
  rfl

/-- the text of a binding -/
theorem written_binding {b : Binding} (name : b.name.isName = true)
    (renamed : ∀ r ∈ b.renamed, r.isName = true) :
    Written (binding b).tokens b.render ∧ ∀ t ∈ (binding b).tokens.getLast?, t.kind = NAME := by
  obtain ⟨text, renamed'⟩ := b
  cases renamed' with
  | none =>
    refine ⟨?_, by rintro t ⟨⟩; rfl⟩
    rw [Binding.render, Text.behind, List.append_nil]
    exact .one (matches_name name)
  | some r =>
    have isAs : AS.Matches "as" [] := .spelled rfl
    have last : Written [⟨NAME, r, .start⟩] r := .one (matches_name (renamed r rfl))
    have both : Written [⟨AS, "as", .start⟩, ⟨NAME, r, .start⟩] _ := .word isAs last
    exact ⟨.word (matches_name name) both, by rintro t ⟨⟩; rfl⟩

/-- the text of bindings in braces -/
theorem written_bindings (names : ∀ b ∈ bs, b.name.isName = true ∧ ∀ r ∈ b.renamed, r.isName = true) :
    Written (bindings bs).tokens
      (Text.ofString "\x7b " ++ Text.join ", " (bs.map Binding.render) ++ Text.ofString " \x7d") := by
  have opening : LBRACE.Matches "\x7b" [] := .spelled rfl
  have closing : Written [⟨RBRACE, "\x7d", .start⟩] (Text.ofString " \x7d") := .spaced (.one (.spelled rfl))
  cases bs with
  | nil => exact .word opening closing
  | cons b bs =>
    obtain ⟨here, further⟩ := List.forall_mem_cons.mp names
    obtain ⟨first, last⟩ := written_binding here.1 here.2
    rw [List.map_cons, Text.join_cons_flatMap, List.flatMap_map]
    have row : Written ((binding b).tokens ++ bs.flatMap fun c => (sign COMMA).tokens ++ (binding c).tokens)
        (b.render ++ bs.flatMap fun c => Text.ofString ", " ++ c.render) := by
      refine first.flatMap (P := (· = NAME)) last (fun c hc => ?_) (fun c hc t mem => ?_) fun c _ k isName => ?_
      · have isComma : COMMA.Matches "," [] := .spelled rfl
        exact .word isComma (written_binding (further c hc).1 (further c hc).2).1
      · have lastHere := (written_binding (further c hc).1 (further c hc).2).2
        rw [List.getLast?_append, Option.mem_def, Option.or_eq_some_iff] at mem
        rcases mem with mem | ⟨none, _⟩
        · exact lastHere t mem
        · exact absurd (List.getLast?_eq_none_iff.mp none) (List.cons_ne_nil _ _)
      · rw [isName]
        exact Text.not_begins_cons (by decide) _
    have inner := row.append closing fun t _ => Text.not_begins_cons (Terminal.goesOn_space _) _
    rw [bindings, tokens_phrase, tokensOf, tokensOf_append, List.map_cons, tokens_series, List.flatMap_map]
    exact .word opening inner

end

end Derivation

end Typings
