import Typings.Proofs.Report.Outcome
import Typings.Proofs.Syntax.Placing
import Typings.Proofs.Syntax.Sketching
/-!
# Spaced texts

A text of lexemes that stand apart is parsed to the derivation that it was written from, if that
leaves out separators only in front of a closing brace or the end.  One space between neighbours
is enough to keep lexemes apart.

* `Token.IsLexeme`             a token that is read as it is written;
* `parse_of_laid`              the derivation of a text of lexemes that stand apart;
* `parse_of_stand`             a derivation that is written out, and the text that its tokens stand in;
* `Token.spaced`               the lexemes of a row of tokens with one space between neighbours;
* `SourceFile.read_spaced`     every derivation that leaves out no separator is read back.
-/

namespace Typings

/-! ## Texts of lexemes -/

/-- a derivation that leaves out separators only in front of a closing brace or the end is found in
a text of its lexemes -/
theorem parse_of_laid {d : Derivation} {text : Text} (valid : d.Valid)
    (root : d.root = .nonterminal .file) (parted : d.Parted .END) (laid : Laid .start text d.tokens)
    (plain : ∀ states, Parser.Along (fun s t => Parser.Expects s t.kind) 0 d.tokens states →
      Parser.Along (fun s t => t.Plain s) 0 d.tokens states) : parse text = .ok d := by
  obtain ⟨states, leads⟩ := Derivation.leads_of_parted valid root parted
  have expects := leads.expects
  exact Parser.parse_of_leads leads (Parser.scanned_of_laid laid (expects.and (plain states expects)))

/-- this is so if no name is a keyword -/
theorem parse_of_names {d : Derivation} {text : Text} (valid : d.Valid)
    (root : d.root = .nonterminal .file) (parted : d.Parted .END) (laid : Laid .start text d.tokens)
    (names : ∀ t ∈ d.tokens, t.kind = .NAME → ∀ u ∈ Terminal.all, u.isWord t.text = false) : parse text = .ok d :=
  parse_of_laid valid root parted laid fun _ expects =>
    expects.imp fun _ t mem _ isName u _ => names t mem isName u u.mem_all

/-- a derivation that is written out is found in a text that its tokens stand in -/
theorem parse_of_stand {d : Derivation} {text : Text} (isFile : d.Valid ∧ d.Parted .END)
    (root : d.root = .nonterminal .file) (stand : Token.Stand .start text d.tokens)
    (names : ∀ t ∈ d.tokens, t.kind = .NAME → ∀ u ∈ Terminal.all, u.isWord t.text = false) : parse text = .ok d :=
  parse_of_names isFile.1 root isFile.2 (laid_of_stand stand) names

/-- a token that is read as it is written: its text is a lexeme of its class, a name is no keyword,
and a string literal can be decoded -/
structure Token.IsLexeme (t : Token) : Prop where
  isToken : t.kind.Matches t.text []
  noKeyword : t.kind = .NAME → ∀ u : Terminal, u.isWord t.text = false
  decodable : ¬ t.Undecodable

/-- keywords and punctuation marks are lexemes -/
theorem Token.isLexeme_spelled {kind : Terminal} {s : String} (spelling : kind.spelling? = some s)
    (start : Cursor) : IsLexeme ⟨kind, s, start⟩ where
  isToken := .spelled spelling
  noKeyword := by
    rintro rfl
    cases spelling
  decodable := by
    rintro ⟨rfl, _⟩
    cases spelling

/-- so are names that are no keywords -/
theorem Token.isLexeme_name {text : Text} (isName : text.isName = true)
    (noKeyword : ∀ u : Terminal, u.isWord text = false) (start : Cursor) :
    IsLexeme ⟨.NAME, text, start⟩ where
  isToken := .name isName Text.not_begins_nil
  noKeyword _ := noKeyword
  decodable := by
    rintro ⟨isString, _⟩
    cases isString

/-- a token with the only spelling of its class, or a name that is no keyword, is a lexeme -/
theorem Token.isLexeme_of_word {t : Token}
    (h : t.kind.spelling?.map Text.ofString = some t.text ∨
      t.kind = .NAME ∧ t.text.isName = true ∧ ∀ u ∈ Terminal.all, u.isWord t.text = false) : t.IsLexeme := by
  obtain ⟨kind, text, start⟩ := t
  rcases h with spelled | ⟨rfl, isName, noKeyword⟩
  · obtain ⟨s, spelling, rfl⟩ := Option.map_eq_some_iff.mp spelled
    exact isLexeme_spelled spelling start
  · exact isLexeme_name isName (fun u => noKeyword u u.mem_all) start

/-- a lexeme is one in any place -/
theorem Token.IsLexeme.of_unplaced {t u : Token} (h : t.IsLexeme) (alike : t.unplaced = u.unplaced) :
    u.IsLexeme := by
  obtain ⟨kind, text, start⟩ := t
  obtain ⟨kind', text', start'⟩ := u
  cases alike
  exact ⟨h.isToken, h.noKeyword, h.decodable⟩

/-- whether tokens can be decoded does not depend on their places -/
theorem Token.decodable_of_unplaced {ts us : List Token}
    (same : us.map Token.unplaced = ts.map Token.unplaced) (h : ∀ t ∈ ts, ¬ t.Undecodable) :
    ∀ u ∈ us, ¬ u.Undecodable :=
  forall_of_unplaced (P := fun kind text => ¬ Undecodable ⟨kind, text, .start⟩) same h

/-! ## Spaces -/

namespace Token

/-- the lexemes of a row of tokens with one space between neighbours -/
def spaced (ts : List Token) : Text := Text.join " " (ts.map text)

/-- the lexemes of a row of tokens with a space in front of each -/
def spacedBehind (ts : List Token) : Text := (ts.map text).flatMap (Text.ofString " " ++ ·)

theorem spaced_cons (t : Token) (ts : List Token) : spaced (t :: ts) = t.text ++ spacedBehind ts :=
  Text.join_cons_flatMap ..

theorem spacedBehind_cons (t : Token) (ts : List Token) :
    spacedBehind (t :: ts) = Text.ofString " " ++ (t.text ++ spacedBehind ts) := rfl

end Token

/-- lexemes with a space between neighbours stand apart, behind any gap -/
theorem laid_joined {t : Token} {ts : List Token} (lexemes : ∀ u ∈ t :: ts, u.kind.Matches u.text [])
    {gap : Text} (place : Cursor)
    (isGap : Gap gap (t.text ++ Token.spacedBehind ts)) :
    ∃ us : List Token, us.map Token.unplaced = (t :: ts).map Token.unplaced ∧
      Laid place (gap ++ (t.text ++ Token.spacedBehind ts)) us := by
  have here := lexemes t List.mem_cons_self
  induction ts generalizing t gap place with
  | nil =>
    exact ⟨[⟨t.kind, t.text, place.advance gap⟩], rfl,
      .cons isGap here Text.not_begins_nil (.nil (.nil []))⟩
  | cons next ts ih =>
    obtain ⟨_, rest⟩ := List.forall_mem_cons.mp lexemes
    rw [Token.spacedBehind_cons] at isGap ⊢
    obtain ⟨us, same, laid⟩ := ih (t := next) rest ((place.advance gap).advance t.text)
      (gap_space _ (rest next List.mem_cons_self)) (rest next List.mem_cons_self)
    refine ⟨⟨t.kind, t.text, place.advance gap⟩ :: us, congrArg (t.unplaced :: ·) same, ?_⟩
    refine .cons isGap here ?_ laid
    show ¬ Text.Begins t.kind.goesOn (.scalar ' ' :: _)
    rw [Text.begins_cons, Terminal.goesOn_space]
    exact Bool.false_ne_true

/-- one space keeps lexemes apart -/
theorem laid_spaced {ts : List Token} (lexemes : ∀ t ∈ ts, t.kind.Matches t.text []) :
    ∃ us : List Token, us.map Token.unplaced = ts.map Token.unplaced ∧
      Laid .start (Token.spaced ts) us := by
  cases ts with
  | nil => exact ⟨[], rfl, .nil (.nil [])⟩
  | cons t ts =>
    rw [Token.spaced_cons]
    exact laid_joined lexemes .start (.nil _)

namespace SourceFile

/-- the string literals of a text that is read can be decoded -/
theorem decodable_of_read {source : Text} {d : Derivation} {f : SourceFile} (h : parse source = .ok d)
    (done : read source = .ok f) : ∀ t ∈ d.tokens, ¬ t.Undecodable := by
  have outcome := read_of_parse h
  cases first : d.literals.findSome? Token.fault? with
  | some e =>
    rw [first, done] at outcome
    cases outcome
  | none =>
    rintro t mem ⟨isString, fault, bad⟩
    have good := List.findSome?_eq_none_iff.mp first t ((d.mem_literals t).mpr ⟨mem, isString⟩)
    exact absurd good (Token.fault?_ne_none bad)

/-- a text that is parsed and whose string literals can be decoded is read -/
theorem read_of_decodable {source : Text} {d : Derivation} (h : parse source = .ok d)
    (decodable : ∀ t ∈ d.tokens, ¬ t.Undecodable) :
    ∃ f, SourceFile.ofTree (.ofDerivation d) = .ok f ∧ read source = .ok f := by
  have outcome := read_of_parse h
  have noFault : d.literals.findSome? Token.fault? = none := by
    refine List.findSome?_eq_none_iff.mpr fun t mem => ?_
    obtain ⟨mem, isString⟩ := (d.mem_literals t).mp mem
    by_contra fault
    obtain ⟨e, found⟩ := Option.ne_none_iff_exists'.mp fault
    obtain ⟨bad, undecodable, _⟩ := Token.fault?_eq_some_iff.mp found
    exact decodable t mem ⟨isString, bad, undecodable⟩
  rw [noFault] at outcome
  obtain ⟨f, done, _⟩ := outcome
  obtain ⟨d', parsed, built⟩ := ofTree_of_read done
  cases h.symm.trans parsed
  exact ⟨f, built, done⟩

/-- a text of lexemes that stand apart is read as the declarations of the derivation that it was
written from -/
theorem read_of_laid {d : Derivation} {text : Text} (valid : d.Valid)
    (root : d.root = .nonterminal .file) (parted : d.Parted .END) (laid : Laid .start text d.tokens)
    (lexemes : ∀ t ∈ d.tokens, t.IsLexeme) :
    parse text = .ok d ∧ ∃ f, SourceFile.ofTree (.ofDerivation d) = .ok f ∧ read text = .ok f := by
  have parsed : parse text = .ok d :=
    parse_of_names valid root parted laid fun t mem isName u _ => (lexemes t mem).noKeyword isName u
  exact ⟨parsed, read_of_decodable parsed fun t mem => (lexemes t mem).decodable⟩

/-- **Every derivation of a file that leaves out no separator, with lexemes of its own, is the one
that the parser finds in the text of its lexemes with one space between neighbours, and this text
is read as the declarations of its tree.** -/
theorem read_spaced {d : Derivation} (valid : d.Valid) (root : d.root = .nonterminal .file)
    (separated : d.Separated) (lexemes : ∀ t ∈ d.tokens, t.IsLexeme) :
    ∃ e : Derivation, e.map Token.unplaced = d.map Token.unplaced ∧
      parse (Token.spaced d.tokens) = .ok e ∧
        ∃ f, SourceFile.ofTree (.ofDerivation e) = .ok f ∧ read (Token.spaced d.tokens) = .ok f := by
  obtain ⟨us, same, laid⟩ := laid_spaced fun t mem => (lexemes t mem).isToken
  obtain ⟨e, rfl, alike⟩ := d.exists_of_tokens same
  have lexemes' : ∀ t ∈ e.tokens, t.IsLexeme := by
    intro t mem
    have mem' := List.mem_map_of_mem (f := Token.unplaced) mem
    rw [same] at mem'
    obtain ⟨u, hu, alike⟩ := List.mem_map.mp mem'
    exact (lexemes u hu).of_unplaced alike
  exact ⟨e, alike, read_of_laid (valid.of_unplaced alike)
    ((Derivation.root_of_unplaced alike).trans root) ((separated.of_unplaced alike).parted .END) laid
    lexemes'⟩

open Typings.Derivation Terminal Nonterminal in
/-- the interface `A` with a property `b` and a call signature behind it.  Without the separators
this would be a method `b`. -/
def propertyAndCall : Derivation :=
  let property := phrase typeMember [phrase propertySignature [phrase propertyName [word NAME "b"]]]
  let call := phrase typeMember [phrase callSignature [sign LPAR, sign RPAR]]
  let semicolon := phrase memberSeparator [sign SEMICOLON]
  let members := phrase objectMembers [phrase objectMembers [property, semicolon], call, semicolon]
  single (phrase interfaceElement [phrase interfaceDeclaration
    [sign INTERFACE, word NAME "A", phrase objectType [sign LBRACE, members, sign RBRACE]]])

theorem read_spaced_propertyAndCall :
    propertyAndCall.Valid ∧ propertyAndCall.root = .nonterminal .file ∧ propertyAndCall.Separated ∧
      (∀ t ∈ propertyAndCall.tokens, t.IsLexeme) ∧
      Token.spaced propertyAndCall.tokens = Text.ofString "interface A \x7b b ; ( ) ; \x7d" ∧
      ∃ e : Derivation, e.map Token.unplaced = propertyAndCall.map Token.unplaced ∧
        parse (Token.spaced propertyAndCall.tokens) = .ok e ∧
        ∃ f, SourceFile.ofTree (.ofDerivation e) = .ok f ∧
          read (Token.spaced propertyAndCall.tokens) = .ok f := by
  have valid : propertyAndCall.Valid := by decide +kernel
  have separated : propertyAndCall.Separated := by decide +kernel
  have lexemes : ∀ t ∈ propertyAndCall.tokens, t.IsLexeme :=
    fun t ht => Token.isLexeme_of_word (by revert t; decide)
  exact ⟨valid, rfl, separated, lexemes, by decide, read_spaced valid rfl separated lexemes⟩

end SourceFile

end Typings
