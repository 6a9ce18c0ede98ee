import Mathlib.Logic.Relation
import Typings.Syntax.Derivation
/-!
# Rewriting by the grammar

The language of the grammar without trees: a row of symbols is rewritten, one phrase at a time.

* `Rewrites`             one phrase is replaced by the right side of one of its productions;
* `Derives`              any number of such steps;
* `Derivation.Valid.derives`   the root of a valid derivation derives the classes of its tokens.
-/

namespace Typings

/-- one phrase of a row of symbols is replaced by the right side of one of its productions -/
inductive Rewrites : List Symbol → List Symbol → Prop
  | replace (front back : List Symbol) {p : Production} (mem : p ∈ productions) :
      Rewrites (front ++ .nonterminal p.lhs :: back) (front ++ p.rhs ++ back)

/-- a row of symbols is rewritten to another one in any number of steps -/
def Derives : List Symbol → List Symbol → Prop := Relation.ReflTransGen Rewrites

namespace Derives

theorem refl (w : List Symbol) : Derives w w := Relation.ReflTransGen.refl

theorem trans {u v w : List Symbol} (h : Derives u v) (g : Derives v w) : Derives u w :=
  Relation.ReflTransGen.trans h g

theorem step {p : Production} (mem : p ∈ productions) : Derives [.nonterminal p.lhs] p.rhs := by
  have h := Rewrites.replace [] [] mem
  rw [List.nil_append, List.nil_append, List.append_nil] at h
  exact Relation.ReflTransGen.single h

/-- what can be rewritten can be rewritten inside a longer row -/
theorem within {u v : List Symbol} (h : Derives u v) (front back : List Symbol) :
    Derives (front ++ u ++ back) (front ++ v ++ back) := by
  induction h with
  | refl => exact refl _
  | tail _ last ih =>
    refine ih.trans (Relation.ReflTransGen.single ?_)
    obtain ⟨l, r, mem⟩ := last
    have h := Rewrites.replace (front ++ l) (r ++ back) mem
    simpa only [List.append_assoc, List.cons_append] using h

/-- neighbours are rewritten independently of each other -/
theorem append {u v w x : List Symbol} (h : Derives u v) (g : Derives w x) :
    Derives (u ++ w) (v ++ x) := by
  have h' := h.within [] w
  have g' := g.within v []
  rw [List.nil_append, List.nil_append] at h'
  rw [List.append_nil, List.append_nil] at g'
  exact h'.trans g'

end Derives

namespace Derivation

/-- the symbols of a row of tokens -/
def symbols (tokens : List Token) : List Symbol := tokens.map fun t => .terminal t.kind

theorem symbols_append (s t : List Token) : symbols (s ++ t) = symbols s ++ symbols t :=
  List.map_append

mutual

/-- the root of a valid derivation derives the classes of its tokens -/
theorem Valid.derives {d : Derivation} : Valid d → Derives [d.root] (symbols d.tokens)
  | .leaf _ => .refl _
  | .node mem roots valid => by
    refine (Derives.step mem).trans ?_
    rw [← roots]
    exact AllValid.derives valid

/-- the roots of a row of valid derivations derive the classes of their tokens -/
theorem AllValid.derives {ds : List Derivation} :
    AllValid ds → Derives (ds.map root) (symbols (tokensOf ds))
  | .nil => .refl _
  | .cons valid rest => by
    rw [tokensOf, symbols_append]
    exact (Valid.derives valid).append (AllValid.derives rest)

end

end Derivation

end Typings
