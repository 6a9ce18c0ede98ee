import Mathlib.Data.List.Chain
import Typings.Proofs.Declaration.Nodes
import Typings.Proofs.Grammar.TypeWords
import Typings.Proofs.Syntax.Joining
/-!
# The names in a tree

The names in a tree are spelled as names.  A type reference that is not the base of a class or an
interface does not begin with a word for a predefined type, since the word would have been read as a
keyword there.

* `Tree.Unreserved`               a type reference does not begin with such a word;
* `Tree.WellNamed`                this for all the trees inside a tree, but for bases;
* `Derivation.Course.wellNamed`   the trees of a derivation with a course are like this;
* `elementTrees_wellNamed`        so are those of a text that is parsed.
-/

namespace Typings

namespace Tree

/-- a type reference does not begin with a word for a predefined type -/
def Unreserved : Tree → Prop
  | .node (.phrase .typeReference) _ children => ∃ found first more,
      child? .entityName children = some found ∧ names found.2 = first :: more ∧
        ∀ u ∈ Terminal.predefinedWords, u.isWord first = false
  | _ => True

/-- names are spelled as names, and type references that are no bases do not begin with a word for a
predefined type -/
inductive WellNamed : Tree → Prop
  | leaf {kind : Option Terminal} {text : Text} {loc : Loc} (name : kind = some .NAME → text.isName = true) :
      WellNamed (.leaf kind text loc)
  | node {label : Label} {loc : Loc} {children : List Tree} (inner : ∀ t ∈ children, WellNamed t)
      (unreserved : label.inherits = false → ∀ t ∈ children, Unreserved t) :
      WellNamed (.node label loc children)

theorem unreserved_node {label : Label} (other : label ≠ .phrase .typeReference) (loc : Loc)
    (children : List Tree) : Unreserved (.node label loc children) := by
  unfold Unreserved
  split
  · rename_i e
    cases e
    exact absurd rfl other
  · trivial

theorem names_isName {ts : List Tree} (h : ∀ t ∈ ts, t.WellNamed) : ∀ n ∈ names ts, n.isName = true := by
  induction ts with
  | nil => exact fun _ h => absurd h List.not_mem_nil
  | cons t ts ih =>
    obtain ⟨here, further⟩ := List.forall_mem_cons.mp h
    cases here with
    | leaf name =>
      rw [names]
      split
      · rename_i isName
        exact List.forall_mem_cons.mpr ⟨name isName, ih further⟩
      · exact ih further
    | node => exact ih further

theorem token?_isName {ts : List Tree} (h : ∀ t ∈ ts, t.WellNamed) {text : Text}
    (found : token? .NAME ts = some text) : text.isName = true := by
  induction ts with
  | nil => cases found
  | cons t ts ih =>
    obtain ⟨here, further⟩ := List.forall_mem_cons.mp h
    cases here with
    | leaf name =>
      rw [token?] at found
      split at found
      · rename_i isName
        cases found
        exact name isName
      · exact ih further found
    | node => exact ih further found

theorem mem_of_child? {part : Nonterminal} {ts : List Tree} {found : Loc × List Tree}
    (h : child? part ts = some found) : .node (.phrase part) found.1 found.2 ∈ ts := by
  induction ts with
  | nil => cases h
  | cons t ts ih =>
    cases t with
    | leaf => exact List.mem_cons_of_mem _ (ih h)
    | node label loc children =>
      rw [child?] at h
      split at h
      · rename_i e
        cases h
        cases e
        exact List.mem_cons_self
      · exact List.mem_cons_of_mem _ (ih h)

end Tree

/-! ## Rows of states -/

namespace Parser

/-- a property of tokens and states, for the tokens in front and for those behind -/
theorem Along.split {P : Nat → Token → Prop} {state : Nat} {tokens more : List Token}
    {states after : List Nat} (same : states.length = tokens.length)
    (h : Along P state (tokens ++ more) (states ++ after)) :
    Along P state tokens states ∧ Along P (states.getLast?.getD state) more after := by
  induction tokens generalizing state states with
  | nil =>
    obtain rfl := List.length_eq_zero_iff.mp same
    exact ⟨.nil, h⟩
  | cons t ts ih =>
    cases states with
    | nil => cases same
    | cons s states =>
      cases h with
      | cons here further =>
        obtain ⟨front, behind⟩ := ih (Nat.succ.inj same) further
        rw [List.getLast?_cons, Option.getD_some]
        exact ⟨.cons here front, behind⟩

end Parser

namespace Derivation
open Automaton Typings.Tree

mutual

/-- a course has a state for each token -/
theorem Course.length : ∀ (d : Derivation) {state : Nat} {ahead : Terminal} {states : List Nat}
    {next : Nat}, Course state d ahead states next → states.length = d.tokens.length
  | .leaf _, _, _, _, _, .leaf _ => rfl
  | .node _ parts, _, _, _, _, .node _ _ inner _ _ => CourseAll.length parts inner

theorem CourseAll.length : ∀ (ds : List Derivation) {state : Nat} {ahead : Terminal} {states : List Nat}
    {last : Nat}, CourseAll state ds ahead states last → states.length = (tokensOf ds).length
  | [], _, _, _, _, .nil => rfl
  | d :: rest, _, _, _, _, .cons here further => by
    rw [List.length_append, tokensOf, List.length_append, Course.length d here,
      CourseAll.length rest further]

end

/-! ## Type references -/

theorem head_of_reference : ∀ p ∈ productions,
    (p.lhs = .typeReference → p.rhs.head? = some (.nonterminal .entityName)) ∧
      (p.lhs = .entityName → p.rhs.head? = some (.terminal .NAME)) := by
  decide +kernel

/-- a derivation whose first part has a root -/
theorem exists_head {d : Derivation} (valid : d.Valid) {n : Nonterminal} (root : d.root = .nonterminal n)
    {s : Symbol} (head : ∀ p ∈ productions, p.lhs = n → p.rhs.head? = some s) :
    ∃ p first rest, d = node p (first :: rest) ∧ p.lhs = n ∧ first.root = s ∧ first.Valid := by
  cases valid with
  | leaf => cases root
  | @node p parts mem roots valids =>
    have lhs : p.lhs = n := Symbol.nonterminal.inj root
    have found := head p mem lhs
    rw [← roots] at found
    cases valids with
    | nil => cases found
    | cons valid _ => exact ⟨p, _, _, rfl, lhs, Option.some.inj found, valid⟩

/-- a type reference begins with a name -/
theorem exists_reference {d : Derivation} (valid : d.Valid) (root : d.root = .nonterminal .typeReference) :
    ∃ rhs rhs' text start more behind, d = node ⟨.typeReference, rhs⟩
      (node ⟨.entityName, rhs'⟩ (leaf ⟨.NAME, text, start⟩ :: more) :: behind) := by
  obtain ⟨⟨_, rhs⟩, entity, behind, rfl, rfl, root, valid⟩ :=
    exists_head valid root fun p mem => (head_of_reference p mem).1
  obtain ⟨⟨_, rhs'⟩, name, more, rfl, rfl, root, _⟩ :=
    exists_head valid root fun p mem => (head_of_reference p mem).2
  cases name with
  | node => cases root
  | leaf t =>
    obtain ⟨kind, text, start⟩ := t
    cases root
    exact ⟨rhs, rhs', text, start, more, behind, rfl⟩

/-- a type reference begins with the name that is its first token -/
theorem unreserved_of_first {d : Derivation} (valid : d.Valid) (root : d.root = .nonterminal .typeReference)
    (first : ∀ t ∈ d.tokens.head?, t.kind = .NAME → ∀ u ∈ Terminal.predefinedWords, u.isWord t.text = false) :
    ∀ t ∈ d.trees, t.Unreserved := by
  obtain ⟨_, _, text, start, _, _, rfl⟩ := exists_reference valid root
  intro tree mem
  rw [trees] at mem
  cases List.mem_singleton.mp mem
  exact ⟨_, text, _, rfl, rfl, first ⟨.NAME, text, start⟩ rfl rfl⟩

/-- a phrase other than a base has a type reference in it only if it is one -/
theorem eq_of_refers {p : Production} (mem : p ∈ productions) (several : p.lhs ≠ .moreReferences)
    (base : (Label.phrase p.lhs).inherits = false) {s : Symbol} (hs : s ∈ p.rhs) (refers : s.refers = true) :
    p = ⟨.primaryType, [.nonterminal .typeReference]⟩ := by
  rcases cases_of_refers p mem s hs refers with e | lhs | lhs | lhs | lhs
  · exact e
  · exact absurd lhs several
  all_goals
    rw [lhs] at base
    cases base

/-! ## Derivations with a course -/

/-- the first token of a type that begins in the state in which the token is looked for is no word for a
predefined type -/
theorem typeWord_ne {state next : Nat} {tokens : List Token} {states : List Nat}
    (step : next? state (.nonterminal .primaryType) = some next)
    (along : Parser.Along (fun s t => t.Plain s) state tokens states) :
    ∀ t ∈ tokens.head?, t.kind = .NAME → ∀ u ∈ Terminal.predefinedWords, u.isWord t.text = false := by
  cases along with
  | nil => exact fun _ h => nomatch h
  | cons plain _ =>
    rintro t ⟨⟩ isName u word
    exact plain isName u (Parser.expects_iff.mpr (acts_of_typeWord step word))

/-- the trees behind the words `extends` and `implements` are nodes -/
theorem inherits_of_shape : ∀ n ∈ Nonterminal.all, n.shape ≠ .node →
    (Label.phrase n).inherits = false := by
  decide

/-- what holds of the trees of the parts holds of those of the phrase -/
theorem shown_wellNamed {n : Nonterminal} {loc : Loc} {children : List Tree}
    (inner : ∀ t ∈ children, t.WellNamed)
    (unreserved : n.shape ≠ .spliced → (Label.phrase n).inherits = false → ∀ t ∈ children, t.Unreserved) :
    ∀ t ∈ shown n loc children, t.WellNamed := by
  unfold shown
  split
  · exact inner
  · exact inner
  · rename_i spliced _
    exact List.forall_mem_singleton.mpr (.node inner (unreserved spliced))

/-- what holds of all trees but type references holds of what a phrase shows as that is none -/
theorem shown_of_others {P : Tree → Prop}
    (others : ∀ label ≠ Label.phrase .typeReference, ∀ loc children, P (.node label loc children))
    {n : Nonterminal} {loc : Loc} {children : List Tree} (other : (Symbol.nonterminal n).refers = false)
    (flat : n.shape ≠ .node → ∀ t ∈ children, P t) : ∀ t ∈ shown n loc children, P t := by
  have alone : ∀ t ∈ [Tree.node (.phrase n) loc children], P t := by
    refine List.forall_mem_singleton.mpr (others _ (fun e => ?_) loc children)
    cases e
    cases other
  unfold shown
  split
  · rename_i shape
    exact flat (by rw [shape]; decide)
  · rename_i shape
    exact flat (by rw [shape]; decide)
  · exact alone

section
variable {state next last : Nat} {p : Production} {parts : List Derivation} {ahead : Terminal} {states : List Nat}

/-- a phrase other than a base has no part with a word for a predefined type for its reference -/
theorem part_unreserved (mem : p ∈ productions) (roots : parts.map root = p.rhs)
    (inner : CourseAll state parts ahead states last)
    (step : next? state (.nonterminal p.lhs) = some next)
    (along : p.lhs = .primaryType → Parser.Along (fun s t => t.Plain s) state (tokensOf parts) states)
    (several : p.lhs ≠ .moreReferences) (base : (Label.phrase p.lhs).inherits = false)
    {d : Derivation} (hd : d ∈ parts) (other : d.root.refers = false → ∀ t ∈ d.trees, t.Unreserved) :
    ∀ t ∈ d.trees, t.Unreserved := by
  cases refers : d.root.refers with
  | false => exact other refers
  | true =>
    obtain rfl := eq_of_refers mem several base (roots ▸ List.mem_map_of_mem hd) refers
    have valid := (allValid_iff parts).mp (CourseAll.valid parts inner) d hd
    have first := typeWord_ne step (along rfl)
    obtain ⟨e, rfl, root⟩ := List.map_eq_singleton_iff.mp roots
    obtain rfl := List.mem_singleton.mp hd
    rw [tokensOf, tokensOf, List.append_nil] at first
    exact unreserved_of_first valid root first

end

mutual

/-- the trees of a derivation whose types begin in the states in which their first tokens are looked for -/
theorem Course.wellNamed : ∀ (d : Derivation) {state lex : Nat} {ahead : Terminal} {states : List Nat}
    {next : Nat}, Course state d ahead states next →
    Parser.Along (fun s t => t.Plain s) lex d.tokens states →
    (∀ t ∈ d.tokens, t.kind = .NAME → t.text.isName = true) →
    (d.root.opensType = true → lex = state) →
      (∀ t ∈ d.trees, t.WellNamed) ∧ (d.root.refers = false → ∀ t ∈ d.trees, t.Unreserved)
  | .leaf token, _, _, _, _, _, _, _, names, _ => by
    rw [trees]
    split
    · refine ⟨List.forall_mem_singleton.mpr (.leaf fun isName => ?_), fun _ =>
        List.forall_mem_singleton.mpr trivial⟩
      exact names token List.mem_cons_self (Option.some.inj isName)
    · exact ⟨fun _ h => absurd h List.not_mem_nil, fun _ _ h => absurd h List.not_mem_nil⟩
  | .node p parts, state, lex, _, _, _, .node mem roots inner _ step, along, names, opens => by
    have all := CourseAll.wellNamed parts inner along names
      (fun s hs isType => opens (opensType_of_head p mem s (roots ▸ hs) isType))
      (roots ▸ opensType_behind p mem)
    have unreserved : p.lhs ≠ .moreReferences → (Label.phrase p.lhs).inherits = false →
        ∀ t ∈ treesOf parts, t.Unreserved := by
      intro several base t ht
      rw [treesOf_eq_flatMap] at ht
      obtain ⟨d, hd, ht⟩ := List.mem_flatMap.mp ht
      refine part_unreserved mem roots inner step (fun isType => ?_) several base hd (all d hd).2 t ht
      have opened : lex = state := opens (by rw [root, isType]; rfl)
      rwa [opened] at along
    rw [trees]
    refine ⟨shown_wellNamed (fun t ht => ?_) fun spliced => unreserved ?_, fun other =>
      shown_of_others (fun _ => unreserved_node) other fun flat => unreserved ?_ ?_⟩
    · rw [treesOf_eq_flatMap] at ht
      obtain ⟨d, hd, ht⟩ := List.mem_flatMap.mp ht
      exact (all d hd).1 t ht
    · rintro e
      rw [e] at spliced
      exact spliced rfl
    · rintro e
      rw [root, e] at other
      cases other
    · exact inherits_of_shape p.lhs p.lhs.mem_all flat

theorem CourseAll.wellNamed : ∀ (ds : List Derivation) {state lex : Nat} {ahead : Terminal}
    {states : List Nat} {last : Nat}, CourseAll state ds ahead states last →
    Parser.Along (fun s t => t.Plain s) lex (tokensOf ds) states →
    (∀ t ∈ tokensOf ds, t.kind = .NAME → t.text.isName = true) →
    (∀ s ∈ (ds.map root).head?, s.opensType = true → lex = state) →
    ((ds.map root).IsChain fun s s' => s'.opensType = true → s.isTerminal = true) →
      ∀ d ∈ ds, (∀ t ∈ d.trees, t.WellNamed) ∧ (d.root.refers = false → ∀ t ∈ d.trees, t.Unreserved)
  | [], _, _, _, _, _, _, _, _, _, _ => fun _ h => absurd h List.not_mem_nil
  | d :: rest, state, lex, _, _, _, .cons here further, along, names, opens, chain => by
    obtain ⟨front, behind⟩ := along.split (Course.length d here)
    rw [tokensOf] at names
    obtain ⟨names, names'⟩ := List.forall_mem_append.mp names
    obtain ⟨next, chain⟩ := List.isChain_cons.mp chain
    refine List.forall_mem_cons.mpr ⟨Course.wellNamed d here front names (opens _ rfl),
      CourseAll.wellNamed rest further behind names' (fun s hs isType => ?_) chain⟩
    have terminal := next s hs isType
    cases here with
    | leaf => rfl
    | node => cases terminal

end

end Derivation

/-! ## Texts -/

/-- a lexeme that is a name is spelled as a name -/
theorem Terminal.Matches.isName {kind : Terminal} {piece rest : Text} (h : kind.Matches piece rest)
    (name : kind = .NAME) : piece.isName = true := by
  subst name
  cases h with
  | name isName => exact isName
  | spelled spelling => cases spelling

theorem Spelled.isName {place : Cursor} {text : Text} {tokens : List Token} (h : Spelled place text tokens) :
    ∀ t ∈ tokens, t.kind = .NAME → t.text.isName = true := by
  induction h with
  | nil => exact fun _ h => absurd h List.not_mem_nil
  | cons _ _ isToken _ ih => exact List.forall_mem_cons.mpr ⟨isToken.isName, ih⟩

/-- the trees of the elements of a text that is parsed -/
theorem elementTrees_wellNamed {source : Text} {d : Derivation} (h : parse source = .ok d) :
    ∀ t ∈ d.elementTrees, t.WellNamed ∧ t.Unreserved := by
  obtain ⟨states, leads, scanned⟩ := leads_of_parse h
  have names := (explains_of_parse h).spelled.isName
  cases leads with
  | @node _ p parts _ mem isFile roots inner =>
    have all := inner.wellNamed parts scanned.plain names (fun _ _ _ => rfl)
      (roots ▸ Automaton.opensType_behind p mem)
    intro t ht
    rw [Derivation.elementTrees, Derivation.treesOf_eq_flatMap] at ht
    obtain ⟨d, hd, ht⟩ := List.mem_flatMap.mp ht
    refine ⟨(all d hd).1 t ht, (all d hd).2 ?_ t ht⟩
    rw [Bool.eq_false_iff]
    intro refers
    have inRhs : d.root ∈ p.rhs := roots ▸ List.mem_map_of_mem hd
    rcases Automaton.cases_of_refers p mem _ inRhs refers with rfl | lhs | lhs | lhs | lhs
    · cases isFile
    all_goals
      rw [lhs] at isFile
      cases isFile

end Typings
