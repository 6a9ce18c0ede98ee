import Typings.Proofs.Grammar.AccessWords
import Typings.Proofs.Syntax.Naming
import Typings.Proofs.Syntax.Wording
/-!
# Names at the front of phrases

Where a phrase comes that may begin with a keyword, the keyword may come, also in the state in which the first
token of the phrase is looked for: the parser first ends the phrases before it.  So a name at the front
of the phrase is not the keyword, since it would have been read as the keyword.

* `Automaton.Ready lex state`     what is read in a state may come in the one before the reductions;
* `Derivation.Course.acts`        what may come behind a phrase may come behind its last token;
* `Derivation.Unopened`           no phrase begins with a name that is a keyword with which it may begin;
* `Derivation.Leads.unopened`     so it is in a text that is parsed.
-/

namespace Typings
open Terminal Nonterminal

/-- the keywords that no name behind a symbol is -/
def Symbol.barredWords : Symbol → List Terminal
  | .nonterminal .accessibility => [STATIC, CONSTRUCTOR]
  | _ => []

namespace Automaton

/-- all that is read in a state has an action in the state in which the token is looked for -/
def Ready (lex state : Nat) : Prop := ∀ t next, next? state (.terminal t) = some next → action lex t ≠ none

theorem ready_self (state : Nat) : Ready state state := by
  intro t next reads
  rw [action_of_next reads]
  exact Option.some_ne_none _

/-- the keywords that a phrase can begin with have an action in front of it -/
theorem Ready.acts {lex state next : Nat} (h : Ready lex state) {n : Nonterminal}
    (step : next? state (.nonterminal n) = some next) :
    ∀ u ∈ (Symbol.nonterminal n).openingWords, action lex u ≠ none := by
  intro u word
  obtain ⟨after, reads⟩ := reads_of_openingWord step word
  exact h u after reads

end Automaton

namespace Derivation
open Automaton

/-! ## Behind the last token of a phrase -/

mutual

/-- what may come behind a phrase may come behind its last token -/
theorem Course.acts : ∀ (d : Derivation) {state : Nat} {ahead : Terminal} {states : List Nat} {next : Nat},
    Course state d ahead states next → ∀ {u : Terminal}, action next u ≠ none →
    (∀ n, d.root = .nonterminal n → Continues state n u) → ∀ lex, action (states.getLast?.getD lex) u ≠ none
  | .leaf _, _, _, _, _, .leaf _, _, acts, _, _ => acts
  | .node p parts, _, _, _, _, .node mem roots inner _ step, _, _, continues, lex => by
    have walk := inner.walk
    rw [roots] at walk
    have behind := continues p.lhs rfl
    have rhs : p.rhs = [] ++ parts.map root := roots.symm
    refine CourseAll.acts parts inner mem rhs rfl (acts_of_continues mem walk behind) behind ?_ lex
    intro empty
    subst empty
    exact ne_file_of_next step (eq_file_of_rhs_nil p mem roots.symm)

theorem CourseAll.acts : ∀ (ds : List Derivation) {start state : Nat} {ahead : Terminal} {states : List Nat}
    {last : Nat} {p : Production} {front : List Symbol}, CourseAll state ds ahead states last →
    p ∈ productions → p.rhs = front ++ ds.map root → walk? start front = some state →
    ∀ {u : Terminal}, action last u ≠ none → Continues start p.lhs u → ds ≠ [] →
      ∀ lex, action (states.getLast?.getD lex) u ≠ none
  | [], _, _, _, _, _, _, _, _, _, _, _, _, _, _, nonempty, _ => absurd rfl nonempty
  | [d], _, _, _, _, _, _, _, .cons here .nil, mem, rhs, walk, _, acts, continues, _, lex => by
    rw [List.append_nil]
    refine Course.acts d here acts (fun n isRoot => ?_) lex
    have step := here.next
    rw [List.map_singleton, isRoot] at rhs
    rw [isRoot] at step
    exact .last mem rhs walk step continues
  | d :: e :: rest, start, _, _, _, _, _, front, @CourseAll.cons _ next _ _ _ _ _ _ here further, mem, rhs, walk, _,
      acts, continues, _, lex => by
    have walk' : walk? start (front ++ [d.root]) = some next := by
      rw [walk?_append _ walk, walk?, here.next]
      rfl
    rw [List.map_cons, List.append_cons] at rhs
    rw [getLast?_append_getD]
    exact CourseAll.acts (e :: rest) further mem rhs walk' acts continues (List.cons_ne_nil _ _) _

end

/-- the state behind the last token of a part is ready for what is read behind the part -/
theorem Course.ready {state next : Nat} {d : Derivation} {ahead : Terminal} {states : List Nat}
    (h : Course state d ahead states next) (lex : Nat) : Ready (states.getLast?.getD lex) next := by
  intro t after reads
  refine Course.acts d h (ready_self next t after reads) (fun n isRoot => ?_) lex
  have step := h.next
  rw [isRoot] at step
  exact .next step reads

theorem rhs_of_accessibility : ∀ p ∈ productions, p.lhs = accessibility →
    ∃ t ∈ accessWords, p.rhs = [.terminal t] := by
  decide +kernel

/-- the keywords that are barred behind a part have an action there -/
theorem Course.acts_of_barred {state next : Nat} {d : Derivation} {ahead : Terminal} {states : List Nat}
    (h : Course state d ahead states next) (lex : Nat) :
    ∀ u ∈ d.root.barredWords, action (states.getLast?.getD lex) u ≠ none := by
  intro u word
  cases h with
  | leaf => cases word
  | @node _ _ _ p parts _ states mem roots inner _ _ =>
    by_cases access : p.lhs = accessibility
    · obtain ⟨t, isAccess, rhs⟩ := rhs_of_accessibility p mem access
      rw [rhs] at roots
      obtain ⟨e, rfl, root⟩ := List.map_eq_singleton_iff.mp roots
      cases inner with
      | cons here further =>
        cases further
        cases here with
        | node => cases root
        | leaf step =>
          rw [root_leaf] at root
          rw [Symbol.terminal.inj root] at step
          have marked : ∀ u ∈ [STATIC, CONSTRUCTOR], ∃ p, (u, p) ∈ markedMembers := by
            intro u word
            rcases List.mem_cons.mp word with rfl | word
            · exact ⟨_, List.mem_cons_self⟩
            · obtain rfl := List.mem_singleton.mp word
              exact ⟨_, List.mem_cons_of_mem _ List.mem_cons_self⟩
          rw [root_node, access] at word
          obtain ⟨q, isMarked⟩ := marked u word
          exact acts_of_access isAccess step _ isMarked
    · have none : (Symbol.nonterminal p.lhs).barredWords = [] := by
        unfold Symbol.barredWords
        split
        · rename_i e
          exact absurd (Symbol.nonterminal.inj e) access
        · rfl
      rw [root_node, none] at word
      cases word

/-! ## Names at the front -/

mutual

/-- no name is a keyword that a phrase could begin with of which it is the first token, or that is barred behind
the part in front of it; more keywords are given for the first token -/
def Unopened (words : List Terminal) : Derivation → Prop
  | leaf token => token.kind = .NAME → ∀ u ∈ words, u.isWord token.text = false
  | node p parts => UnopenedAll ((Symbol.nonterminal p.lhs).openingWords ++ words) parts

/-- the same for parts of a phrase -/
def UnopenedAll (words : List Terminal) : List Derivation → Prop
  | [] => True
  | d :: rest => Unopened words d ∧ UnopenedAll d.root.barredWords rest

end

mutual

theorem Course.unopened : ∀ (d : Derivation) {state lex : Nat} {ahead : Terminal} {states : List Nat}
    {next : Nat}, Course state d ahead states next → Ready lex state →
    Parser.Along (fun s t => t.Plain s) lex d.tokens states → ∀ {words : List Terminal},
    (∀ u ∈ words, action lex u ≠ none) → d.Unopened words
  | .leaf _, _, _, _, _, _, .leaf _, _, .cons plain _, _, acts =>
    fun isName u word => plain isName u (Parser.expects_iff.mpr (acts u word))
  | .node _ parts, _, _, _, _, _, .node _ _ inner _ step, ready, along, _, acts =>
    CourseAll.unopened parts inner ready along (List.forall_mem_append.mpr ⟨ready.acts step, acts⟩)

theorem CourseAll.unopened : ∀ (ds : List Derivation) {state lex : Nat} {ahead : Terminal}
    {states : List Nat} {last : Nat}, CourseAll state ds ahead states last → Ready lex state →
    Parser.Along (fun s t => t.Plain s) lex (tokensOf ds) states → ∀ {words : List Terminal},
    (∀ u ∈ words, action lex u ≠ none) → UnopenedAll words ds
  | [], _, _, _, _, _, .nil, _, _, _, _ => trivial
  | d :: rest, _, lex, _, _, _, .cons here further, ready, along, _, acts => by
    obtain ⟨front, behind⟩ := along.split (Course.length d here)
    exact ⟨Course.unopened d here ready front acts,
      CourseAll.unopened rest further (here.ready lex) behind (here.acts_of_barred lex)⟩

end

/-- in a file no phrase begins with a name that is a keyword with which it may begin -/
theorem Leads.unopened {p : Production} {parts : List Derivation} {states : List Nat}
    (h : Leads (.node p parts) states)
    (along : Parser.Along (fun s t => t.Plain s) 0 (tokensOf parts) states) : UnopenedAll [] parts := by
  cases h with
  | node _ _ _ inner => exact CourseAll.unopened parts inner (ready_self 0) along fun _ h => absurd h List.not_mem_nil

end Derivation

end Typings
