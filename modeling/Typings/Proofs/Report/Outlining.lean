import Typings.Proofs.Declaration.Outlines
import Typings.Proofs.Report.Concatenation
import Typings.Proofs.Report.Conversion
import Typings.Proofs.Report.Spacing
/-!
# Outlines without fallbacks

The declarations of a text that is read are of the kinds that belong in their places, and no fallback is found in
their outline, if no string literal in the text has a value with an opening bracket.

* `Terminal.Matches.isWord`            a token that is kept in the tree is a word, unless it is a string literal;
* `Derivation.trees_plain`             the trees of a derivation are plain;
* `SourceFile.render_noFallback`       the main result.
-/

namespace Typings
open Terminal Nonterminal

/-! ## Tokens -/

namespace Text
variable {t u : Text}

theorem isWord_of {p : CodePoint → Bool} (apart : p (.scalar '<') = false ∧ p (.scalar ' ') = false)
    (all : ∀ x ∈ t, p x = true) : t.IsWord where
  noBracket mem := by cases apart.1.symm.trans (all _ mem)
  noSpace mem := by cases apart.2.symm.trans (all _ mem)

theorem IsWord.append (ht : t.IsWord) (hu : u.IsWord) : (t ++ u).IsWord where
  noBracket mem := (List.mem_append.mp mem).elim ht.noBracket hu.noBracket
  noSpace mem := (List.mem_append.mp mem).elim ht.noSpace hu.noSpace

end Text

theorem Decimals.isWord {piece rest : Text} (h : Decimals piece rest) : piece.IsWord := by
  have digits : ∀ {t : Text}, (∀ x ∈ t, x.isDecimal = true) → t.IsWord :=
    Text.isWord_of ⟨by decide, by decide⟩
  cases h with
  | whole _ all => exact digits all
  | fraction _ all _ allMore => exact (digits all).append (.append (t := ['.']) ⟨by decide, by decide⟩ (digits allMore))

/-- a token that is kept in the tree is a word, unless it is a string literal -/
theorem Terminal.Matches.isWord {kind : Terminal} {piece rest : Text} (h : kind.Matches piece rest)
    (kept : kind.isKept = true) (other : kind ≠ STRING) : piece.IsWord := by
  have spellings : ∀ k ∈ Terminal.all, k.isKept = true → ∀ s ∈ k.spelling?,
      .scalar '<' ∉ Text.ofString s ∧ .scalar ' ' ∉ Text.ofString s := by
    decide
  cases h with
  | name isName => exact Text.isWord_of ⟨by decide, by decide⟩ (Text.isNamePart_of_isName isName)
  | string => exact absurd rfl other
  | hexadecimal isX _ all =>
    have digits := Text.isWord_of (p := CodePoint.isHexDigit) ⟨by decide, by decide⟩ all
    rcases isX with rfl | rfl
    · exact .append (t := ['0', 'x']) ⟨by decide, by decide⟩ digits
    · exact .append (t := ['0', 'X']) ⟨by decide, by decide⟩ digits
  | decimal isDecimal => exact isDecimal.isWord
  | negative isDecimal => exact .append (t := ['-']) ⟨by decide, by decide⟩ isDecimal.isWord
  | @spelled _ s _ spelling =>
    obtain ⟨noBracket, noSpace⟩ := spellings kind kind.mem_all kept s spelling
    exact ⟨noBracket, noSpace⟩

/-- a token is a lexeme, and if it is a string literal its value has no opening bracket -/
structure Token.IsClear (t : Token) : Prop where
  isToken : t.kind.Matches t.text []
  value : t.kind = STRING → ∀ v, Literal.decode t.text = .ok v → .scalar '<' ∉ v

/-! ## Trees -/

/-- a token that is no string literal -/
def Symbol.isPlain : Symbol → Bool
  | terminal t => t != STRING
  | nonterminal _ => false

namespace Production

/-- what is taken as it stands from a phrase is no string literal -/
theorem verbatim_checked : ∀ p ∈ productions,
    (p.lhs = predefinedType ∨ p.lhs = accessibility → p.rhs.all Symbol.isPlain = true) ∧
      (p.lhs = enumMember → p.rhs.head? = some (.nonterminal propertyName) ∧ p.rhs.tail.all Symbol.isPlain = true) := by
  decide +kernel

end Production

namespace Derivation

/-- tokens of other classes show as no string literals -/
theorem symbol_of_isPlain {ds : List Derivation} (h : (ds.map root).all Symbol.isPlain = true) :
    ∀ t ∈ treesOf ds, t.symbol? ≠ some (.terminal STRING) := by
  rw [List.all_map, List.all_eq_true] at h
  intro t mem
  rw [treesOf_eq_flatMap] at mem
  obtain ⟨d, hd, mem⟩ := List.mem_flatMap.mp mem
  have plain := h d hd
  cases d with
  | node => cases plain
  | leaf token =>
    rw [trees] at mem
    split at mem
    · obtain rfl := List.mem_singleton.mp mem
      intro e
      exact bne_iff_ne.mp plain (Symbol.terminal.inj (Option.some.inj e))
    · cases mem

/-- a phrase that is not spliced shows as one tree -/
theorem length_shown {n : Nonterminal} (whole : n.shape ≠ .spliced) (loc : Loc) (children : List Tree) :
    (shown n loc children).length = 1 := by
  unfold shown
  split
  · contradiction
  · rfl
  · rfl

/-- what is taken as it stands from a phrase is no string literal -/
theorem symbol_of_verbatim {p : Production} {parts : List Derivation} (mem : p ∈ productions)
    (roots : parts.map root = p.rhs) :
    ∀ t ∈ Tree.verbatim (.phrase p.lhs) (treesOf parts), t.symbol? ≠ some (.terminal STRING) := by
  obtain ⟨words, member⟩ := Production.verbatim_checked p mem
  rw [← roots] at words member
  unfold Tree.verbatim
  split
  · rename_i e
    exact symbol_of_isPlain (words (.inl (Label.phrase.inj e)))
  · rename_i e
    exact symbol_of_isPlain (words (.inr (Label.phrase.inj e)))
  · rename_i e
    obtain ⟨head, tail⟩ := member (Label.phrase.inj e)
    -- the name in front shows as one tree
    cases parts with
    | nil => cases head
    | cons d rest =>
      cases d with
      | leaf => cases head
      | node q inner =>
        have isName : q.lhs = .propertyName := Symbol.nonterminal.inj (Option.some.inj head)
        have one := length_shown (n := q.lhs) (by rw [isName]; decide) (node q inner).loc (treesOf inner)
        obtain ⟨t, shows⟩ := List.length_eq_one_iff.mp one
        rw [treesOf, trees, shows]
        exact symbol_of_isPlain tail
  · exact fun _ h => absurd h List.not_mem_nil

/-- a phrase shows as plain trees if its parts do -/
theorem shown_plain {n : Nonterminal} {loc : Loc} {children : List Tree} (inner : ∀ t ∈ children, t.Plain)
    (words : ∀ t ∈ Tree.verbatim (.phrase n) children, t.symbol? ≠ some (.terminal STRING)) :
    ∀ t ∈ shown n loc children, t.Plain := by
  unfold shown
  split
  · exact inner
  · exact inner
  · exact List.forall_mem_singleton.mpr (.node inner words)

mutual

/-- the trees of a derivation are plain -/
theorem trees_plain : ∀ d : Derivation, d.Valid → (∀ t ∈ d.tokens, t.IsClear) → ∀ t ∈ d.trees, t.Plain
  | leaf token, _, clear => by
    have here := clear token List.mem_cons_self
    rw [trees]
    split
    · rename_i kept
      exact List.forall_mem_singleton.mpr (.leaf
        (fun other => here.isToken.isWord kept fun e => other (congrArg some e))
        fun isString => here.value (Option.some.inj isString))
    · exact List.forall_mem_nil _
  | node p parts, .node mem roots valids, clear => by
    rw [trees]
    exact shown_plain (treesOf_plain parts valids clear) (symbol_of_verbatim mem roots)

theorem treesOf_plain : ∀ ds : List Derivation, AllValid ds → (∀ t ∈ tokensOf ds, t.IsClear) →
    ∀ t ∈ treesOf ds, t.Plain
  | [], _, _ => List.forall_mem_nil _
  | d :: rest, .cons valid valids, clear => by
    rw [tokensOf] at clear
    obtain ⟨here, further⟩ := List.forall_mem_append.mp clear
    rw [treesOf]
    exact List.forall_mem_append.mpr ⟨trees_plain d valid here, treesOf_plain rest valids further⟩

end

end Derivation

/-! ## Files -/

namespace SourceFile

/-- **The declarations of a text that is read are of the kinds that belong in their places, and if no string
literal in the text has a value with an opening bracket, no fallback is found in what is shown of them.** -/
theorem render_noFallback {source : Text} {d : Derivation} {f : SourceFile} (parsed : parse source = .ok d)
    (done : read source = .ok f)
    (values : ∀ t ∈ d.tokens, t.kind = STRING → ∀ v, Literal.decode t.text = .ok v → .scalar '<' ∉ v) :
    f.Sorted ∧ ∀ s ∈ Text.fallbacks, ¬ s <:+: f.render := by
  have explains := explains_of_parse parsed
  have clear : ∀ t ∈ d.tokens, t.IsClear := fun t mem => ⟨explains.spelled.lexemes t mem, values t mem⟩
  have sorted : f.Sorted := by
    have reported := read_reported source
    rwa [done] at reported
  refine ⟨sorted, (clear_render ?_).noFallback⟩
  obtain ⟨e, parsed', built⟩ := elements_of_read done
  obtain rfl : d = e := Except.ok.inj (parsed.symm.trans parsed')
  refine Element.ofTrees_shown d.elementTrees ?_ _ built
  have valid := explains.valid
  cases valid with
  | leaf => exact List.forall_mem_nil _
  | node mem roots valids => exact Derivation.treesOf_plain _ valids clear

open Typings.Derivation in
/-- an interface with a string literal for the name of a property, and a type with an argument -/
def quotedProperty : Derivation :=
  let name (offset : Nat) (text : Text) : Derivation := phrase entityName [wordAt offset NAME text]
  let arguments := phrase typeArguments
    [signAt 22 LESSTHAN, primary (phrase typeReference [name 24 "C"]), signAt 26 MORETHAN]
  let type := primary (phrase typeReference [name 20 "B", arguments])
  interfaceOf (objectAt 12 (phrase propertySignature [phrase propertyName [wordAt 14 STRING "\"k\""],
    phrase ascription [signAt 18 COLON, type]]) 28)

/-- the text of `quotedProperty` -/
theorem parse_quotedProperty : parse "interface A \x7b \"k\" : B < C > \x7d" = .ok quotedProperty :=
  parse_of_stand (by decide +kernel) rfl (by decide +kernel) (by decide)

theorem render_noFallback_quotedProperty :
    let text : Text := "interface A \x7b \"k\" : B < C > \x7d"
    ∃ f, parse text = .ok quotedProperty ∧ read text = .ok f ∧
      (∀ t ∈ quotedProperty.tokens, t.kind = STRING → ∀ v, Literal.decode t.text = .ok v → .scalar '<' ∉ v) ∧
        f.Sorted ∧ ∀ s ∈ Text.fallbacks, ¬ s <:+: f.render := by
  have noFault : quotedProperty.literals.findSome? Token.fault? = none := by decide
  have values : ∀ t ∈ quotedProperty.tokens, t.kind = STRING →
      ∀ v, Literal.decode t.text = .ok v → .scalar '<' ∉ v := by
    have checked : ∀ t ∈ quotedProperty.tokens, t.kind = STRING → Literal.decode t.text = .ok ['k'] := by decide
    intro t mem isString v e
    obtain rfl : v = ['k'] := Except.ok.inj (e.symm.trans (checked t mem isString))
    decide
  have outcome := read_of_parse parse_quotedProperty
  rw [noFault] at outcome
  obtain ⟨f, done, -⟩ := outcome
  exact ⟨f, parse_quotedProperty, done, values, render_noFallback parse_quotedProperty done values⟩

end SourceFile

end Typings
