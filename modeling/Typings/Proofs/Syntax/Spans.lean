import Typings.Proofs.Declaration.Moving
/-!
# The tokens below a tree

A tree stands for a stretch of tokens: its node is at the first of them, and the trees below the node stand
for stretches that follow one another in it.  Between these stretches are the tokens that a tree does not show.

* `Tree.Spans t tokens`        the tree stands for these tokens;
* `Derivation.trees_span`      the trees of a derivation stand for its tokens.
-/

namespace Typings

namespace Tree

mutual

/-- a tree stands for a stretch of tokens, and is at the first of them -/
inductive Spans : Tree → List Token → Prop
  | leaf {kind : Option Terminal} {text : Text} (t : Token) : Spans (.leaf kind text t.start.loc) [t]
  | node {label : Label} {children : List Tree} {t : Token} {rest : List Token}
      (below : SpansAll children (t :: rest)) : Spans (.node label t.start.loc children) (t :: rest)

/-- trees stand for stretches that follow one another -/
inductive SpansAll : List Tree → List Token → Prop
  | nil (behind : List Token) : SpansAll [] behind
  | cons (front : List Token) {t : Tree} {ts : List Tree} {here behind : List Token} (first : Spans t here)
      (further : SpansAll ts behind) : SpansAll (t :: ts) (front ++ (here ++ behind))

end

namespace SpansAll

/-- tokens in front that no tree shows -/
theorem behind (front : List Token) {ts : List Tree} {tokens : List Token} (h : SpansAll ts tokens) :
    SpansAll ts (front ++ tokens) := by
  cases h with
  | nil => exact .nil _
  | cons more first further =>
    rw [← List.append_assoc]
    exact .cons (front ++ more) first further

theorem append {us : List Tree} {behind : List Token} (h' : SpansAll us behind) :
    ∀ {ts : List Tree} {tokens : List Token}, SpansAll ts tokens → SpansAll (ts ++ us) (tokens ++ behind)
  | _, _, .nil front => h'.behind front
  | _, _, .cons front first further => by
    rw [List.append_assoc, List.append_assoc]
    exact .cons front first (append h' further)

/-- one tree with all the tokens -/
theorem one {t : Tree} {tokens : List Token} (h : Spans t tokens) : SpansAll [t] tokens := by
  have h' := cons [] h (.nil [])
  rwa [List.nil_append, List.append_nil] at h'

end SpansAll

end Tree

namespace Derivation
open Typings.Tree

theorem shown_span (n : Nonterminal) {children : List Tree} {t : Token} {rest : List Token}
    (below : SpansAll children (t :: rest)) : SpansAll (shown n t.start.loc children) (t :: rest) := by
  unfold shown
  split
  · exact below
  · exact below
  · exact .one (.node below)

mutual

/-- the trees of a phrase stand for its tokens -/
theorem trees_span : ∀ d : Derivation, d.Valid → d.root ≠ .nonterminal .file → SpansAll d.trees d.tokens
  | .leaf token, _, _ => by
    rw [trees, tokens]
    split
    · exact .one (.leaf token)
    · exact .nil [token]
  | .node p parts, valid, part => by
    obtain ⟨t, rest, e⟩ := List.exists_cons_of_ne_nil (tokens_ne_nil valid part)
    have place : (node p parts).loc = t.start.loc := by
      rw [loc, start?_eq, e]
      rfl
    rw [trees, place, e]
    refine shown_span p.lhs (e ▸ ?_)
    cases valid with
    | node mem roots valids =>
      exact treesOf_span parts valids fun isFile => Automaton.file_not_mem_rhs p mem (roots ▸ isFile)

theorem treesOf_span : ∀ ds : List Derivation, AllValid ds → .nonterminal .file ∉ ds.map root →
    SpansAll (treesOf ds) (tokensOf ds)
  | [], _, _ => .nil []
  | d :: rest, .cons valid valids, part => by
    rw [List.map_cons, List.mem_cons, not_or] at part
    exact .append (treesOf_span rest valids part.2) (trees_span d valid (Ne.symm part.1))

end

end Derivation

end Typings
