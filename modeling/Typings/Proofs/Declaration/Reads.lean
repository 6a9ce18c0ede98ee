import Typings.Declaration.OfTree
/-!
# Reading with string literals that may fail

The only thing that can go wrong while the parts of a declaration are read is a string literal that
cannot be decoded.

* `Token.fault?`           the error of a token that cannot be decoded;
* `Reads literals P r`     `r` is the first error of the literals, or else a value with `P`;
* `Derivation.literals`    the string literals under a derivation, in the order they are read;
* `Derivation.mem_literals`   these are all string literals among its tokens.
-/

namespace Typings

/-- the error of a string literal, none if it can be decoded -/
def Token.fault? (t : Token) : Option BuildError :=
  match Literal.decode t.text with
  | .ok _ => none
  | .error fault => some (.badLiteral t.text fault t.start.loc)

/-- a reading fails at the first of its literals that cannot be decoded, and gives a value with a
property if there is none -/
def Reads {α : Type} (literals : List Token) (P : α → Prop) (r : Except BuildError α) : Prop :=
  match literals.findSome? Token.fault? with
  | none => ∃ a, r = .ok a ∧ P a
  | some e => r = .error e

namespace Reads
variable {α β : Type} {P : α → Prop} {Q : β → Prop} {literals more : List Token}

theorem ok {a : α} (h : P a) : Reads [] P (.ok a : Except BuildError α) := ⟨a, rfl, h⟩

theorem mono {P' : α → Prop} {r : Except BuildError α} (h : Reads literals P r)
    (le : ∀ a, P a → P' a) : Reads literals P' r := by
  unfold Reads at h ⊢
  cases e : literals.findSome? Token.fault? with
  | none =>
    rw [e] at h
    obtain ⟨a, rfl, ha⟩ := h
    exact ⟨a, rfl, le a ha⟩
  | some fault =>
    rw [e] at h
    exact h

/-- what is read later fails later -/
theorem bind {r : Except BuildError α} {k : α → Except BuildError β} (h : Reads literals P r)
    (next : ∀ a, P a → Reads more Q (k a)) : Reads (literals ++ more) Q (r >>= k) := by
  unfold Reads at h ⊢
  rw [List.findSome?_append]
  cases e : literals.findSome? Token.fault? with
  | none =>
    rw [e] at h
    obtain ⟨a, rfl, ha⟩ := h
    exact next a ha
  | some fault =>
    rw [e] at h
    obtain rfl : r = .error fault := h
    rfl

/-- a value that is only put in its place -/
theorem map {r : Except BuildError α} {g : α → β} (h : Reads literals P r)
    (put : ∀ a, P a → Q (g a)) : Reads literals Q (r >>= fun a => .ok (g a)) := by
  have next : ∀ a, P a → Reads [] Q (.ok (g a)) := fun a ha => ok (put a ha)
  have := h.bind next
  rwa [List.append_nil] at this

theorem literal (t : Token) :
    Reads [t] (fun _ => True) (Tree.literal t.text t.start.loc) := by
  unfold Reads Tree.literal
  rw [List.findSome?_singleton, Token.fault?]
  cases Literal.decode t.text with
  | ok value => exact ⟨value, rfl, trivial⟩
  | error fault => rfl

end Reads

namespace Derivation

mutual

/-- the string literals in the order they are read: from left to right, but the type of the values
of an index signature comes before the type of the key -/
def literals : Derivation → List Token
  | leaf token => if token.kind = .STRING then [token] else []
  | node p parts => literalsOf (p.lhs == .indexSignature) parts

/-- the string literals of a row, from right to left if it is read backwards -/
def literalsOf (back : Bool) : List Derivation → List Token
  | [] => []
  | d :: rest => if back then literalsOf back rest ++ literals d else literals d ++ literalsOf back rest

end

mutual

/-- all string literals among the tokens are read -/
theorem mem_literals (t : Token) : ∀ d : Derivation, t ∈ d.literals ↔ t ∈ d.tokens ∧ t.kind = .STRING
  | leaf token => by
    rw [literals, tokens, List.mem_singleton]
    by_cases h : token.kind = .STRING
    · rw [if_pos h, List.mem_singleton]
      constructor
      · rintro rfl
        exact ⟨rfl, h⟩
      · exact fun h => h.1
    · rw [if_neg h]
      constructor
      · intro none
        cases none
      · rintro ⟨rfl, isString⟩
        exact absurd isString h
  | node p parts => by
    rw [literals, tokens]
    exact mem_literalsOf t _ parts

theorem mem_literalsOf (t : Token) (back : Bool) :
    ∀ ds : List Derivation, t ∈ literalsOf back ds ↔ t ∈ tokensOf ds ∧ t.kind = .STRING
  | [] => by
    rw [literalsOf, tokensOf]
    constructor
    · intro none
      cases none
    · rintro ⟨none, _⟩
      cases none
  | d :: rest => by
    have here := mem_literals t d
    have there := mem_literalsOf t back rest
    rw [literalsOf, tokensOf, List.mem_append, or_and_right, ← here, ← there]
    cases back with
    | false => exact List.mem_append
    | true => exact List.mem_append.trans or_comm

end

end Derivation

end Typings
