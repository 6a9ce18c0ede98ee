import Typings.Proofs.Syntax.Feeding
/-!
# Phrases that end

The parser reads on where it can, so a phrase ends only in front of a token that is not read there.  A derivation
of which all phrases end in front of what comes behind them has a course.

* `Derivation.Ended`                 each phrase ends in front of what comes behind it;
* `Derivation.leads_of_ended`        then the derivation has a course.
-/

namespace Typings

namespace Derivation
open Automaton

mutual

/-- with a token of the class `ahead` behind it, each phrase ends in front of the token behind it -/
inductive Ended : Derivation → Terminal → Prop
  | leaf (token : Token) (ahead : Terminal) : Ended (leaf token) ahead
  | node {p : Production} {parts : List Derivation} {ahead : Terminal} (ends : p.EndsBefore ahead)
      (inner : AllEnded parts ahead) : Ended (node p parts) ahead

inductive AllEnded : List Derivation → Terminal → Prop
  | nil (ahead : Terminal) : AllEnded [] ahead
  | cons {d : Derivation} {rest : List Derivation} {ahead : Terminal} (here : Ended d (firstKind rest ahead))
      (further : AllEnded rest ahead) : AllEnded (d :: rest) ahead

end

mutual

/-- from a state with a dot in front of its symbol, a derivation has a course -/
theorem course_of_ended : ∀ {d : Derivation}, d.Valid → ∀ {ahead : Terminal}, Ended d ahead →
    ∀ {state first i : Nat} {p : Production}, Item state first p i → p.rhs[i]? = some d.root →
      ∃ states next, Course state d ahead states next
  | .leaf _, _, _, _, _, _, _, _, item, hi => by
    obtain ⟨next, step⟩ := item.next hi
    exact ⟨_, _, .leaf step⟩
  | .node q parts, .node mem roots valid, _, .node ends inner, _, _, _, _, item, hi => by
    obtain ⟨next, step⟩ := item.next hi
    obtain ⟨_, start⟩ := item.enter hi mem
    obtain ⟨states, last, row, atEnd⟩ := courseAll_of_ended valid inner start roots.symm
    exact ⟨states, next, .node mem roots row (atEnd.unread ends) step⟩

/-- the same for the parts of a production that are still to be read -/
theorem courseAll_of_ended : ∀ {ds : List Derivation}, AllValid ds → ∀ {ahead : Terminal}, AllEnded ds ahead →
    ∀ {state first i : Nat} {p : Production}, Item state first p i → p.rhs.drop i = ds.map root →
      ∃ states last, CourseAll state ds ahead states last ∧ Item last first p p.rhs.length
  | [], _, _, _, state, _, i, p, item, rhs => by
    have atEnd : i = p.rhs.length := Nat.le_antisymm item.le (List.drop_eq_nil_iff.mp rhs)
    exact ⟨[], state, .nil, atEnd ▸ item⟩
  | d :: rest, .cons valid valids, _, .cons here further, _, _, i, p, item, rhs => by
    obtain ⟨hi, rhs⟩ := drop_cons rhs
    obtain ⟨states, next, course⟩ := course_of_ended valid here item hi
    obtain ⟨more, last, row, atEnd⟩ := courseAll_of_ended valids further (item.advance hi course.next) rhs
    exact ⟨states ++ more, last, .cons course row, atEnd⟩

end

/-- a derivation of a file of which all phrases end where they should has a course -/
theorem leads_of_ended {d : Derivation} (valid : d.Valid) (root : d.root = .nonterminal .file)
    (ended : Ended d .END) : ∃ states, d.Leads states := by
  match d, valid, ended with
  | .node p parts, .node mem roots valids, .node _ inner =>
    have isFile : p.lhs = .file := Symbol.nonterminal.inj root
    obtain ⟨first, item⟩ := item_of_file isFile mem
    obtain ⟨states, last, row, _⟩ := courseAll_of_ended valids inner item roots.symm
    exact ⟨states, .node mem isFile roots row⟩

end Derivation

end Typings
