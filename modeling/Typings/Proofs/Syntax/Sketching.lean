import Typings.Proofs.Syntax.Scanning
/-!
# Derivations written out

A derivation is written out from its tokens and its phrases.  Whether the tokens stand in a text as they are
written can be computed, and then the text is laid out by them.

* `Derivation.sign`, `word`, `phrase`, `single`    the derivations of keywords and marks, names, phrases and files;
* `Derivation.signAt`, `wordAt`                    tokens in the first line of a text;
* `Derivation.primary`, `objectAt`, `interfaceOf`  types and interfaces;
* `Token.Stand`                                    tokens stand in a text, with ignored text between them;
* `laid_of_stand`                                  so the text is laid out by them.
-/

namespace Typings

namespace Derivation

/-! ## Phrases -/

/-- the derivation of a keyword or a punctuation mark -/
def sign (t : Terminal) : Derivation := leaf ⟨t, Text.ofString (t.spelling?.getD ""), .start⟩

/-- the derivation of a token of another class -/
def word (t : Terminal) (text : Text) : Derivation := leaf ⟨t, text, .start⟩

/-- the phrase that is written by its parts -/
def phrase (n : Nonterminal) (parts : List Derivation) : Derivation := node ⟨n, parts.map root⟩ parts

@[simp] theorem tokens_sign (t : Terminal) :
    (sign t).tokens = [⟨t, Text.ofString (t.spelling?.getD ""), .start⟩] := rfl

@[simp] theorem tokens_phrase (n : Nonterminal) (parts : List Derivation) :
    (phrase n parts).tokens = tokensOf parts := rfl

/-- the file of one element -/
def single (d : Derivation) : Derivation := phrase .file [phrase .fileElements [phrase .element [d]]]

/-- a token in the first line of a text -/
def wordAt (offset : Nat) (t : Terminal) (text : Text) : Derivation := leaf ⟨t, text, ⟨offset, 1, offset + 1⟩⟩

/-- a keyword or a punctuation mark in the first line of a text -/
def signAt (offset : Nat) (t : Terminal) : Derivation := wordAt offset t (Text.ofString (t.spelling?.getD ""))

/-- a type that is neither of functions nor of constructors -/
def primary (d : Derivation) : Derivation := phrase .typeExpr [phrase .primaryType [d]]

/-- the object type of one member, with its braces in the first line of a text -/
def objectAt (opening : Nat) (member : Derivation) (closing : Nat) : Derivation :=
  phrase .objectType [signAt opening .LBRACE, phrase .objectMembers [phrase .typeMember [member]], signAt closing .RBRACE]

/-- the file of an interface `A` with a body -/
def interfaceOf (body : Derivation) : Derivation :=
  single (phrase .interfaceElement [phrase .interfaceDeclaration [signAt 0 .INTERFACE, wordAt 10 .NAME "A", body]])

end Derivation

/-! ## Tokens in a text -/

namespace Token

/-- from a place on, the tokens stand in a text: each of them behind ignored text, read as it is written and not made
longer by what is behind it -/
def Stand : Cursor → Text → List Token → Prop
  | _, text, [] => (Pattern.gap text).2 = []
  | place, text, t :: ts =>
    let start := place.advance (Pattern.gap text).1
    let behind : Text := (Pattern.gap text).2.drop t.text.length
    t.start = start ∧ t.text ++ behind = (Pattern.gap text).2 ∧
      read? (· == t.kind) t.text = some (t.kind, t.text, []) ∧ ¬ behind.Begins t.kind.goesOn ∧
        Stand (start.advance t.text) behind ts

instance decidableStand : ∀ (place : Cursor) (text : Text) (tokens : List Token), Decidable (Stand place text tokens)
  | _, _, [] => inferInstanceAs (Decidable (_ = _))
  | place, text, t :: ts =>
    have := decidableStand ((place.advance (Pattern.gap text).1).advance t.text)
      ((Pattern.gap text).2.drop t.text.length) ts
    inferInstanceAs (Decidable (_ ∧ _))

end Token

/-- a text in which the tokens stand is laid out by them -/
theorem laid_of_stand {place : Cursor} {text : Text} {tokens : List Token} (h : Token.Stand place text tokens) :
    Laid place text tokens := by
  induction tokens generalizing place text with
  | nil =>
    have isGap := Pattern.gap_isGap text
    have whole := Pattern.gap_append text
    rw [Token.Stand] at h
    rw [h] at isGap whole
    rw [← whole, List.append_nil]
    exact .nil isGap
  | cons t ts ih =>
    obtain ⟨start, split, found, ends, further⟩ := h
    have isGap := Pattern.gap_isGap text
    have whole := Pattern.gap_append text
    rw [← split] at isGap whole
    have laid := Laid.cons isGap (Token.matches_of_read? found).1 ends (ih further)
    rwa [whole, ← start] at laid

end Typings
