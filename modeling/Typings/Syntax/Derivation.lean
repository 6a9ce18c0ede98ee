import Typings.Grammar.Rules
import Typings.Token.Basic
/-!
# Derivations

A derivation tells how a row of tokens is a phrase of the grammar.

* `Derivation`             a token, or a production with a derivation for each symbol on its right;
* `Derivation.root`        the symbol that a derivation is for;
* `Derivation.tokens`      its tokens in order;
* `Derivation.start?`      the place of its first token;
* `Derivation.Valid`       every node is a production of the grammar whose right side its children
                           have as roots.
-/

namespace Typings

/-- a token, or a phrase written by a production with a part for each symbol on its right -/
inductive Derivation where
  | leaf (token : Token)
  | node (production : Production) (parts : List Derivation)
deriving Inhabited

namespace Derivation

/-- the symbol that a derivation is for -/
def root : Derivation → Symbol
  | leaf token => .terminal token.kind
  | node p _ => .nonterminal p.lhs

mutual

/-- the tokens in order -/
def tokens : Derivation → List Token
  | leaf token => [token]
  | node _ parts => tokensOf parts

/-- the tokens of a row of derivations -/
def tokensOf : List Derivation → List Token
  | [] => []
  | d :: rest => tokens d ++ tokensOf rest

end

mutual

/-- the place of the first token, none if there is no token -/
def start? : Derivation → Option Cursor
  | leaf token => some token.start
  | node _ parts => startOf? parts

/-- the place of the first token of a row of derivations -/
def startOf? : List Derivation → Option Cursor
  | [] => none
  | d :: rest => (start? d).or (startOf? rest)

end

mutual

/-- every node is a production of the grammar over the roots of its parts -/
inductive Valid : Derivation → Prop
  | leaf (token : Token) : Valid (leaf token)
  | node {p : Production} {parts : List Derivation} (mem : p ∈ productions)
      (roots : parts.map root = p.rhs) (valid : AllValid parts) : Valid (node p parts)

/-- every derivation of a row is valid -/
inductive AllValid : List Derivation → Prop
  | nil : AllValid []
  | cons {d : Derivation} {rest : List Derivation} :
      Valid d → AllValid rest → AllValid (d :: rest)

end

@[simp] theorem root_leaf (token : Token) : (leaf token).root = .terminal token.kind := rfl

@[simp] theorem root_node (p : Production) (parts : List Derivation) :
    (node p parts).root = .nonterminal p.lhs := rfl

theorem tokensOf_eq_flatMap (ds : List Derivation) : tokensOf ds = ds.flatMap tokens := by
  induction ds with
  | nil => rfl
  | cons d ds ih => rw [tokensOf, ih, List.flatMap_cons]

theorem allValid_iff (ds : List Derivation) : AllValid ds ↔ ∀ d ∈ ds, Valid d := by
  induction ds with
  | nil => exact ⟨fun _ d h => absurd h List.not_mem_nil, fun _ => .nil⟩
  | cons d ds ih =>
    refine ⟨fun h => ?_, fun h => ?_⟩
    · cases h with
      | cons hd hds => exact List.forall_mem_cons.mpr ⟨hd, ih.mp hds⟩
    · obtain ⟨hd, hds⟩ := List.forall_mem_cons.mp h
      exact .cons hd (ih.mpr hds)

end Derivation

end Typings
