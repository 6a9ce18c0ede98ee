import Typings.Proofs.Grammar.OpeningWords
import Typings.Proofs.Syntax.Scanning
/-!
# Names where keywords may come

A name is read as a keyword if it is spelled like one that may come in its place.  Which keywords may come
in a state can be told from any of its items: only those that the items beside it read, and if a phrase
ends there, those that can follow it.  A state is known to have an item directly behind a token.

* `Dot`                      a place in a production;
* `Dot.Behind`               a symbol leads to a state, with the dot behind it;
* `Dot.mayRead`              what is read in the states with a dot;
* `Dot.Admits`               only some keywords are;
* `Derivation.dotBehind`     the dot behind the last token of a derivation;
* `Derivation.Unworded`      no name is a keyword that may come at the dot in front of it;
* `Derivation.Leads.plain`   so none is read as a keyword.
-/

namespace Typings
open Automaton

/-! ## Dots -/

/-- a place in a production, behind some symbols of its right side -/
structure Dot where
  production : Production
  behind : Nat
deriving DecidableEq

namespace Dot

/-- a state has the dot -/
def At (dot : Dot) (state : Nat) : Prop := ∃ first, Item state first dot.production dot.behind

/-- a symbol leads to the state, with the dot behind it -/
def Behind (dot : Dot) (state : Nat) : Prop := ∃ before first i s, dot.behind = i + 1 ∧
  Item before first dot.production i ∧ dot.production.rhs[i]? = some s ∧ next? before s = some state

theorem Behind.at {dot : Dot} {state : Nat} (h : dot.Behind state) : dot.At state := by
  obtain ⟨before, first, i, s, e, item, hi, step⟩ := h
  refine ⟨first, ?_⟩
  rw [e]
  exact item.advance hi step

/-- the items beside the dot allow a terminal to come: one of them reads it, or it follows the phrase of one
that is complete -/
def mayRead (dot : Dot) (t : Terminal) : Bool :=
  Beside.items dot.production dot.behind &&& (Beside.endsBefore t ||| Beside.before (.terminal t)) != 0

/-- only these keywords come in the states with the dot -/
def Admits (dot : Dot) (words : List Terminal) : Prop :=
  ∀ u ∈ Terminal.all, u.isKeyword = true → dot.mayRead u = true → u ∈ words

instance (dot : Dot) (words : List Terminal) : Decidable (dot.Admits words) :=
  inferInstanceAs (Decidable (∀ u ∈ Terminal.all, _))

theorem Admits.mono {dot : Dot} {words more : List Terminal} (h : dot.Admits words)
    (sub : ∀ u ∈ words, u ∈ more) : dot.Admits more :=
  fun u mem keyword read => sub u (h u mem keyword read)

/-- an item beside the dot that reads the terminal, or is complete where the terminal follows -/
theorem mayRead_of_item {dot : Dot} {state g j : Nat} {q : Production} {t : Terminal} (at' : dot.At state)
    (item : Item state g q j)
    (here : (Beside.endsBefore t ||| Beside.before (.terminal t)).testBit (g + j) = true) :
    dot.mayRead t = true := by
  obtain ⟨_, known⟩ := at'
  exact bne_iff_ne.mpr ((and_ne_zero_iff _ _).mpr ⟨_, known.beside item, here⟩)

/-- what may come in a state with the dot may be read there -/
theorem mayRead_of_expects {dot : Dot} {state : Nat} {t : Terminal} (at' : dot.At state)
    (expects : Parser.Expects state t) : dot.mayRead t = true := by
  obtain ⟨act, found⟩ := Option.ne_none_iff_exists'.mp (Parser.expects_iff.mp expects)
  cases act with
  | shift next =>
    obtain ⟨g, q, j, item, hj⟩ := exists_item_of_next (action_shift found)
    refine mayRead_of_item at' item ?_
    rw [Nat.testBit_or, Beside.testBit_before item.mem_numbered hj, Bool.or_true]
  | reduce q =>
    obtain ⟨g, item⟩ := item_of_reduce found
    refine mayRead_of_item at' item ?_
    rw [Nat.testBit_or, Beside.testBit_endsBefore item.mem_numbered (follow_of_reduce found), Bool.true_or]

/-- a name that is none of the words is no keyword that comes in the states with the dot -/
theorem Admits.not_isWord {dot : Dot} {words : List Terminal} (admits : dot.Admits words) {name : Text}
    (free : ∀ u ∈ words, u.isWord name = false) : ∀ u, dot.mayRead u = true → u.isWord name = false := by
  intro u read
  cases keyword : u.isKeyword with
  | true => exact free u (admits u u.mem_all keyword read)
  | false => rw [Terminal.isWord, keyword, Bool.false_and]

end Dot

/-! ## Derivations -/

/-- a property of tokens and states, of two rows together -/
theorem Parser.Along.append {P : Nat → Token → Prop} {state : Nat} {tokens more : List Token}
    {states after : List Nat} (h : Along P state tokens states)
    (h' : Along P (states.getLast?.getD state) more after) :
    Along P state (tokens ++ more) (states ++ after) := by
  induction h with
  | nil => exact h'
  | cons here _ ih =>
    rw [List.getLast?_cons, Option.getD_some] at h'
    exact .cons here (ih h')

theorem getLast?_append_getD (states more : List Nat) (state : Nat) :
    (states ++ more).getLast?.getD state = more.getLast?.getD (states.getLast?.getD state) := by
  rw [List.getLast?_append]
  cases more.getLast? <;> rfl

namespace Derivation

mutual

/-- the dot behind the last token of a part of a production, in the production of the token -/
def dotBehind (p : Production) (i : Nat) : Derivation → Option Dot
  | leaf _ => some ⟨p, i + 1⟩
  | node q parts => dotBehindAll q 0 parts

/-- the same for the parts of a production from one on -/
def dotBehindAll (p : Production) (i : Nat) : List Derivation → Option Dot
  | [] => none
  | [d] => dotBehind p i d
  | _ :: e :: rest => dotBehindAll p (i + 1) (e :: rest)

end

mutual

/-- each name has a known dot in front of it, and is no keyword that may be read there; the dot in front
of the whole derivation is given -/
def Unworded (dot : Option Dot) : Derivation → Prop
  | leaf token => token.kind = .NAME → ∃ d ∈ dot, ∀ u, d.mayRead u = true → u.isWord token.text = false
  | node p parts => UnwordedAll dot p 0 parts

/-- the same for the parts of a production from one on -/
def UnwordedAll (dot : Option Dot) (p : Production) (i : Nat) : List Derivation → Prop
  | [] => True
  | d :: rest => Unworded dot d ∧ UnwordedAll (dotBehind p i d) p (i + 1) rest

end

mutual

/-- the last token leads to the state behind it, with the dot behind it -/
theorem Course.dotBehind : ∀ (d : Derivation) {state : Nat} {ahead : Terminal} {states : List Nat}
    {next : Nat}, Course state d ahead states next → ∀ {first i : Nat} {p : Production},
    Item state first p i → p.rhs[i]? = some d.root → ∀ lex, ∀ dot ∈ d.dotBehind p i,
      dot.Behind (states.getLast?.getD lex)
  | .leaf _, _, _, _, _, .leaf step, _, _, _, item, hi, _, _, mem => by
    cases mem
    exact ⟨_, _, _, _, rfl, item, hi, step⟩
  | .node _ parts, _, _, _, _, .node mem roots inner _ _, _, _, _, item, hi, lex, dot, known => by
    obtain ⟨_, start⟩ := item.enter hi mem
    exact CourseAll.dotBehind parts inner start roots.symm lex dot known

theorem CourseAll.dotBehind : ∀ (ds : List Derivation) {state : Nat} {ahead : Terminal}
    {states : List Nat} {last : Nat}, CourseAll state ds ahead states last →
    ∀ {first i : Nat} {p : Production}, Item state first p i → p.rhs.drop i = ds.map root →
    ∀ lex, ∀ dot ∈ dotBehindAll p i ds, dot.Behind (states.getLast?.getD lex)
  | [], _, _, _, _, _, _, _, _, _, _, _, _, mem => nomatch mem
  | [d], _, _, _, _, .cons here .nil, _, _, _, item, rhs, lex, dot, mem => by
    rw [List.append_nil]
    exact Course.dotBehind d here item (drop_cons rhs).1 lex dot mem
  | d :: e :: rest, _, _, _, _, .cons here further, _, _, _, item, rhs, lex, dot, mem => by
    obtain ⟨hi, rhs⟩ := drop_cons rhs
    rw [getLast?_append_getD]
    exact CourseAll.dotBehind (e :: rest) further (item.advance hi here.next) rhs _ dot mem

end

mutual

theorem Course.plain : ∀ (d : Derivation) {state lex : Nat} {ahead : Terminal} {states : List Nat}
    {next : Nat}, Course state d ahead states next → ∀ {first i : Nat} {p : Production},
    Item state first p i → p.rhs[i]? = some d.root → ∀ {dot : Option Dot},
    (∀ known ∈ dot, known.At lex) → d.Unworded dot →
      Parser.Along (fun s t => t.Plain s) lex d.tokens states
  | .leaf token, _, lex, _, _, _, .leaf _, _, _, _, _, _, dot, known, unworded => by
    refine .cons (fun isName u expects => ?_) .nil
    obtain ⟨d, mem, apart⟩ := unworded isName
    exact apart u (Dot.mayRead_of_expects (known d mem) expects)
  | .node _ parts, _, _, _, _, _, .node mem roots inner _ _, _, _, _, item, hi, _, known, unworded => by
    obtain ⟨_, start⟩ := item.enter hi mem
    exact CourseAll.plain parts inner start roots.symm known unworded

theorem CourseAll.plain : ∀ (ds : List Derivation) {state lex : Nat} {ahead : Terminal}
    {states : List Nat} {last : Nat}, CourseAll state ds ahead states last →
    ∀ {first i : Nat} {p : Production}, Item state first p i → p.rhs.drop i = ds.map root →
    ∀ {dot : Option Dot}, (∀ known ∈ dot, known.At lex) → UnwordedAll dot p i ds →
      Parser.Along (fun s t => t.Plain s) lex (tokensOf ds) states
  | [], _, _, _, _, _, .nil, _, _, _, _, _, _, _, _ => .nil
  | d :: rest, _, lex, _, _, _, .cons here further, _, _, _, item, rhs, _, known, ⟨unworded, later⟩ => by
    obtain ⟨hi, rhs⟩ := drop_cons rhs
    exact (Course.plain d here item hi known unworded).append
      (CourseAll.plain rest further (item.advance hi here.next) rhs
        (fun known mem => (Course.dotBehind d here item hi lex known mem).at) later)

end

/-- in a file, no such name is a keyword that may come in its place -/
theorem Leads.plain {d : Derivation} {states : List Nat} (h : d.Leads states)
    (unworded : d.Unworded none) : Parser.Along (fun s t => t.Plain s) 0 d.tokens states := by
  cases h with
  | @node _ p parts _ mem isFile roots inner =>
    obtain ⟨_, item⟩ := item_of_file isFile mem
    exact CourseAll.plain parts inner item roots.symm (fun _ h => absurd h (Option.not_mem_none _)) unworded

end Derivation

end Typings
