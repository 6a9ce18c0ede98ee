import Typings.Proofs.Declaration.Rows
import Typings.Proofs.Syntax.Opening
/-!
# Legible trees

What is read off the tree of a type is printed in words that are read in the same way, if the names in the tree
are no keywords where they are printed.  The trees of a text that is parsed are like this, unless a
member has a string literal for its name.

* `Derivation.Unquoted`          no name of a member is written as a string literal;
* `Derivation.trees_isFor`       what the trees of a phrase are for;
* `Tree.RefersFree`              a type reference does not begin with some keywords;
* `Tree.Legible`                 the tokens of a tree are lexemes, and no name is a keyword in its place;
* `Derivation.trees_legible`     the trees of a derivation are legible.
-/

namespace Typings
open Terminal Nonterminal

namespace Derivation

mutual

/-- no name of a member is written as a string literal -/
def Unquoted : Derivation → Prop
  | leaf _ => True
  | node p parts => p ≠ ⟨propertyName, [STRING]⟩ ∧ UnquotedAll parts

/-- the same for a row of derivations -/
def UnquotedAll : List Derivation → Prop
  | [] => True
  | d :: rest => Unquoted d ∧ UnquotedAll rest

end

end Derivation

/-! ## What trees are for -/

namespace Nonterminal

/-- the phrases that come in front of brackets in an array type -/
def primaries : List Nonterminal := [predefinedType, typeReference, typeQuery, objectType, arrayType]

/-- what the trees in a phrase are for, where it matters: no string literals in the place of names -/
def inside? : Nonterminal → Option (List Symbol)
  | predefinedType => some (predefinedWords.map .terminal)
  | accessibility => some (accessWords.map .terminal)
  | primaryType | arrayType => some (primaries.map .nonterminal)
  | parameterList | anyParameter | moreParameters => some [parameter, restParameter]
  | propertyName => some [NAME, NUMERAL]
  | propertySignature => some [NAME, NUMERAL, QMARK, ascription]
  | methodSignature => some [NAME, NUMERAL, QMARK, callSignature]
  | _ => none

end Nonterminal

namespace Symbol

/-- what the trees of a symbol are for, where it matters -/
def shows? : Symbol → Option (List Symbol)
  | terminal t => some (if t.isKept then [.terminal t] else [])
  | nonterminal n => if n.shape = .node then some [.nonterminal n] else n.inside?

/-- a symbol that shows as one tree, without the phrases that pass on a part -/
def isSingle : Symbol → Bool
  | terminal t => t.isKept
  | nonterminal n => n.shape == .node

/-- the keywords that are kept from the front of a phrase by the longer phrases that it is the front of -/
def handedWords : Symbol → List Terminal
  | nonterminal .primaryType | nonterminal .arrayType => typeWords
  | nonterminal .propertySignature | nonterminal .methodSignature => [NEW]
  | _ => []

/-- no tree of the one symbol is for the other one -/
def Lacks (s other : Symbol) : Prop := ∃ l ∈ s.shows?, other ∉ l

instance (s other : Symbol) : Decidable (s.Lacks other) := inferInstanceAs (Decidable (∃ l ∈ s.shows?, _))

end Symbol

namespace Production

/-- the trees of the parts are for what the trees in the phrase are for -/
def ShowsInside (p : Production) : Prop :=
  ∀ l ∈ p.lhs.inside?, (∀ s ∈ p.rhs, ∃ k ∈ s.shows?, ∀ u ∈ k, u ∈ l) ∧
    (p.lhs.shape = .transparent → p.rhs.length = 1 ∧ p.rhs.all Symbol.isSingle = true)

instance (p : Production) : Decidable p.ShowsInside := inferInstanceAs (Decidable (∀ l ∈ p.lhs.inside?, _))

/-- keywords are kept from the front of the first part by the phrase -/
def HandsOn (p : Production) : Prop :=
  (∀ s ∈ p.rhs.head?, ∀ u ∈ s.handedWords, u ∈ (Symbol.nonterminal p.lhs).openingWords ++
    (Symbol.nonterminal p.lhs).handedWords) ∧ ∀ s ∈ p.rhs.tail, s.handedWords = []

instance (p : Production) : Decidable p.HandsOn := inferInstanceAs (Decidable (_ ∧ _))

/-- the name of a member comes first, and that of a parameter too unless its accessibility does -/
def Names (p : Production) : Prop :=
  (p.lhs = propertySignature ∨ p.lhs = methodSignature →
    p.rhs.head? = some (.nonterminal propertyName) ∧ ∀ s ∈ p.rhs.tail, s.Lacks NAME) ∧
  (p.lhs = parameter →
    (p.rhs.head? = some (.terminal NAME) ∧ (∀ s ∈ p.rhs.tail, s.Lacks NAME) ∧ ∀ s ∈ p.rhs, s.Lacks accessibility) ∨
      (p.rhs.head? = some (.nonterminal accessibility) ∧ p.rhs.tail.head? = some (.terminal NAME) ∧
        ∀ s ∈ p.rhs.tail.tail, s.Lacks NAME)) ∧
  (p.lhs = propertyName → ∃ t ∈ [NAME, STRING, NUMERAL], p.rhs = [.terminal t])

instance (p : Production) : Decidable p.Names := inferInstanceAs (Decidable (_ ∧ _ ∧ _))

theorem legible_checked : ∀ p ∈ productions,
    (p ≠ ⟨propertyName, [STRING]⟩ → p.ShowsInside) ∧ p.HandsOn ∧ p.Names := by
  decide +kernel

end Production

namespace Tree

/-- the symbol that a tree is for -/
def symbol? : Tree → Option Symbol
  | leaf kind _ _ => kind.map .terminal
  | node (.phrase n) _ _ => some (.nonterminal n)
  | node (.other _) _ _ => none

/-- a tree is for one of some symbols -/
def IsFor (l : List Symbol) (t : Tree) : Prop := ∃ s ∈ l, t.symbol? = some s

theorem IsFor.mono {k l : List Symbol} {t : Tree} (h : t.IsFor k) (sub : ∀ s ∈ k, s ∈ l) : t.IsFor l := by
  obtain ⟨s, mem, isFor⟩ := h
  exact ⟨s, sub s mem, isFor⟩

theorem names_append (a b : List Tree) : names (a ++ b) = names a ++ names b := by
  induction a with
  | nil => rfl
  | cons t a ih =>
    cases t with
    | node => exact ih
    | leaf kind text loc =>
      rw [List.cons_append, names, names, ih]
      split <;> rfl

/-- no tree that is a name, no names -/
theorem names_eq_nil {l : List Symbol} (other : .terminal NAME ∉ l) {ts : List Tree} (h : ∀ t ∈ ts, t.IsFor l) :
    names ts = [] := by
  induction ts with
  | nil => rfl
  | cons t ts ih =>
    obtain ⟨⟨s, mem, isFor⟩, further⟩ := List.forall_mem_cons.mp h
    cases t with
    | node => exact ih further
    | leaf kind text loc =>
      rw [names, if_neg, ih further]
      rintro rfl
      exact other (Option.some.inj isFor ▸ mem)

/-- no tree of a phrase, no child for it -/
theorem child?_eq_none {l : List Symbol} {n : Nonterminal} (other : .nonterminal n ∉ l) {ts : List Tree}
    (h : ∀ t ∈ ts, t.IsFor l) : child? n ts = none := by
  induction ts with
  | nil => rfl
  | cons t ts ih =>
    obtain ⟨⟨s, mem, isFor⟩, further⟩ := List.forall_mem_cons.mp h
    cases t with
    | leaf => exact ih further
    | node label loc children =>
      rw [child?, if_neg, ih further]
      rintro rfl
      exact other (Option.some.inj isFor ▸ mem)

end Tree

namespace Derivation
open Typings.Tree

theorem exists_tree_of_single {d : Derivation} (h : d.root.isSingle = true) : ∃ t, d.trees = [t] := by
  cases d with
  | leaf token =>
    have kept : token.kind.isKept = true := h
    rw [trees, if_pos kept]
    exact ⟨_, rfl⟩
  | node p parts =>
    have isNode : p.lhs.shape = .node := eq_of_beq h
    rw [trees]
    unfold shown
    rw [isNode]
    exact ⟨_, rfl⟩

/-- a phrase of one part that shows as one tree is this tree, if it passes on its part -/
theorem shown_of_single {n : Nonterminal} (passesOn : n.shape = .transparent) {loc : Loc} {ds : List Derivation}
    (one : (ds.map root).length = 1) (single : (ds.map root).all Symbol.isSingle = true) :
    shown n loc (treesOf ds) = treesOf ds := by
  rw [List.length_map] at one
  obtain ⟨d, rfl⟩ := List.length_eq_one_iff.mp one
  rw [List.all_eq_true] at single
  obtain ⟨t, trees⟩ := exists_tree_of_single (single d.root List.mem_cons_self)
  rw [treesOf, treesOf, trees]
  exact shown_singleton passesOn loc t

/-- if the trees of the parts are for what is in the phrase, so are those of the phrase -/
theorem shown_isFor {p : Production} (inside : p.ShowsInside) {parts : List Derivation}
    (roots : parts.map root = p.rhs) {loc : Loc} (all : ∀ l ∈ p.lhs.inside?, ∀ t ∈ treesOf parts, t.IsFor l) :
    ∀ l ∈ (Symbol.nonterminal p.lhs).shows?, ∀ t ∈ shown p.lhs loc (treesOf parts), t.IsFor l := by
  intro l mem t ht
  rw [Symbol.shows?] at mem
  split at mem
  · rename_i isNode
    cases mem
    unfold shown at ht
    rw [isNode] at ht
    obtain rfl := List.mem_singleton.mp ht
    exact ⟨_, List.mem_cons_self, rfl⟩
  · refine all l mem t ?_
    cases shape : p.lhs.shape with
    | node => contradiction
    | spliced =>
      unfold shown at ht
      rwa [shape] at ht
    | transparent =>
      obtain ⟨one, single⟩ := (inside l mem).2 shape
      rw [← roots] at one single
      rwa [shown_of_single shape one single] at ht

mutual

/-- what the trees of a phrase are for -/
theorem trees_isFor : ∀ d : Derivation, d.Valid → d.Unquoted → ∀ l ∈ d.root.shows?, ∀ t ∈ d.trees, t.IsFor l
  | .leaf token, _, _, l, mem, t, ht => by
    rw [trees] at ht
    obtain rfl : (if token.kind.isKept then [Symbol.terminal token.kind] else []) = l := Option.some.inj mem
    split at ht
    · rename_i kept
      obtain rfl := List.mem_singleton.mp ht
      rw [if_pos kept]
      exact ⟨_, List.mem_cons_self, rfl⟩
    · cases ht
  | .node p parts, .node mem roots valids, ⟨named, unquoted⟩, l, hl, t, ht => by
    have inside := (Production.legible_checked p mem).1 named
    rw [trees] at ht
    refine shown_isFor inside roots (fun k hk => ?_) l hl t ht
    exact treesOf_isFor parts valids unquoted k fun s hs => (inside k hk).1 s (roots ▸ hs)

theorem treesOf_isFor : ∀ ds : List Derivation, AllValid ds → UnquotedAll ds → ∀ l : List Symbol,
    (∀ s ∈ ds.map root, ∃ k ∈ s.shows?, ∀ u ∈ k, u ∈ l) → ∀ t ∈ treesOf ds, t.IsFor l
  | [], _, _, _, _, _, ht => by cases ht
  | d :: rest, .cons valid valids, ⟨unquoted, unquotedAll⟩, l, sub, t, ht => by
    rw [List.map_cons] at sub
    obtain ⟨⟨k, hk, sub⟩, subs⟩ := List.forall_mem_cons.mp sub
    rw [treesOf] at ht
    rcases List.mem_append.mp ht with ht | ht
    · exact (trees_isFor d valid unquoted k hk t ht).mono sub
    · exact treesOf_isFor rest valids unquotedAll l subs t ht

end

section
variable {ds : List Derivation} (valid : AllValid ds) (unquoted : UnquotedAll ds)
include valid unquoted

/-- the trees of parts without names -/
theorem names_of_lacks (lacks : ∀ s ∈ ds.map root, s.Lacks NAME) : names (treesOf ds) = [] := by
  induction ds with
  | nil => rfl
  | cons d rest ih =>
    cases valid with
    | cons valid valids =>
      rw [List.map_cons] at lacks
      obtain ⟨⟨l, shows, other⟩, lacks⟩ := List.forall_mem_cons.mp lacks
      rw [treesOf, names_append, names_eq_nil other (trees_isFor d valid unquoted.1 l shows),
        ih valids unquoted.2 lacks]
      rfl

/-- the trees of parts without a phrase -/
theorem child?_of_lacks {n : Nonterminal} (lacks : ∀ s ∈ ds.map root, s.Lacks n) :
    child? n (treesOf ds) = none := by
  induction ds with
  | nil => rfl
  | cons d rest ih =>
    cases valid with
    | cons valid valids =>
      rw [List.map_cons] at lacks
      obtain ⟨⟨l, shows, other⟩, lacks⟩ := List.forall_mem_cons.mp lacks
      rw [treesOf, child?_append, child?_eq_none other (trees_isFor d valid unquoted.1 l shows),
        ih valids unquoted.2 lacks]
      rfl

end

/-- the name that a part is, if it is one, is none of the words in front of it -/
theorem names_of_word {d : Derivation} {words : List Terminal} (valid : d.Valid) (unopened : d.Unopened words)
    (word : d.root = .terminal NAME ∨ d.root = .nonterminal Nonterminal.propertyName) :
    ∀ name ∈ names d.trees, ∀ u ∈ words, u.isWord name = false := by
  have leaves : ∀ {t : Token} {words : List Terminal}, (leaf t).Unopened words →
      ∀ name ∈ names (leaf t).trees, ∀ u ∈ words, u.isWord name = false := by
    intro t words unopened name mem u hu
    rw [trees] at mem
    split at mem
    · rw [names] at mem
      split at mem
      · rename_i isName
        obtain rfl := List.mem_singleton.mp mem
        exact unopened (Option.some.inj isName) u hu
      · cases mem
    · cases mem
  cases valid with
  | leaf t => exact leaves unopened
  | @node p parts mem roots _ =>
    rcases word with word | word
    · cases word
    · have isProperty : p.lhs = Nonterminal.propertyName := Symbol.nonterminal.inj word
      obtain ⟨t, isKind, rhs⟩ := (Production.legible_checked p mem).2.2.2.2 isProperty
      rw [rhs] at roots
      obtain ⟨e, rfl, root⟩ := List.map_eq_singleton_iff.mp roots
      cases e with
      | node => cases root
      | leaf token =>
        have shows : (node p [leaf token]).trees = (leaf token).trees := by
          have kept : ∀ t ∈ [NAME, STRING, NUMERAL], t.isKept = true := by decide
          rw [root_leaf] at root
          have isKept := kept t isKind
          rw [← Symbol.terminal.inj root] at isKept
          show shown p.lhs _ (treesOf [leaf token]) = _
          rw [isProperty, treesOf, treesOf, List.append_nil, trees, if_pos isKept]
          rfl
        rw [shows]
        exact fun name mem u hu => leaves unopened.1 name mem u (List.mem_append_right _ hu)

end Derivation

/-! ## Legible trees -/

namespace Tree

/-- a type reference does not begin with some keywords -/
def RefersFree (words : List Terminal) : Tree → Prop
  | .node (.phrase .typeReference) _ children => ∃ found first more,
      child? .entityName children = some found ∧ names found.2 = first :: more ∧
        ∀ u ∈ words, u.isWord first = false
  | _ => True

theorem refersFree_node {words : List Terminal} {label : Label} (other : label ≠ .phrase .typeReference) (loc : Loc)
    (children : List Tree) : RefersFree words (.node label loc children) := by
  unfold RefersFree
  split
  · rename_i e
    cases e
    exact absurd rfl other
  · trivial

/-- the keywords that the name in a phrase is not -/
def otherWords (n : Nonterminal) (children : List Tree) : List Terminal :=
  match n with
  | propertySignature | methodSignature => [NEW]
  | parameter => if (child? Nonterminal.accessibility children).isSome then [STATIC, CONSTRUCTOR] else accessWords
  | _ => []

/-- the tokens are lexemes, and no name is a keyword where it is printed -/
inductive Legible : Tree → Prop
  | leaf {k : Terminal} {text : Text} {loc : Loc} (isToken : k.Matches text []) : Legible (.leaf (some k) text loc)
  | node {n : Nonterminal} {loc : Loc} {children : List Tree} (inner : ∀ t ∈ children, Legible t)
      (inside : ∀ l ∈ n.inside?, ∀ t ∈ children, t.IsFor l)
      (others : ∀ name ∈ names children, ∀ u ∈ otherWords n children, u.isWord name = false)
      (named : n = .entityName → names children ≠ [])
      (references : (Label.phrase n).inherits = false → ∀ t ∈ children, t.RefersFree typeWords) :
      Legible (.node (.phrase n) loc children)

end Tree

namespace Derivation
open Typings.Tree

/-- a type reference does not begin with the keywords in front of it -/
theorem refersFree_of_unopened {d : Derivation} {words : List Terminal} (valid : d.Valid)
    (root : d.root = .nonterminal .typeReference) (unopened : d.Unopened words) :
    ∀ t ∈ d.trees, t.RefersFree words := by
  obtain ⟨_, _, text, start, _, _, rfl⟩ := exists_reference valid root
  intro tree mem
  rw [trees] at mem
  cases List.mem_singleton.mp mem
  exact ⟨_, text, _, rfl, rfl, fun u hu => unopened.1.1 rfl u
    (List.mem_append_right _ (List.mem_append_right _ hu))⟩

section
variable {p : Production} {parts : List Derivation} {words : List Terminal} (mem : p ∈ productions)
  (roots : parts.map root = p.rhs) (valids : AllValid parts) (unquoted : UnquotedAll parts)
  (unopened : UnopenedAll ((Symbol.nonterminal p.lhs).openingWords ++ words) parts)
include mem roots valids unquoted unopened

/-- the name of a member is none of the keywords in front of it -/
theorem names_of_member (isMember : p.lhs = propertySignature ∨ p.lhs = methodSignature) :
    ∀ name ∈ names (treesOf parts), ∀ u ∈ words, u.isWord name = false := by
  obtain ⟨head, lacks⟩ := (Production.legible_checked p mem).2.2.1 isMember
  rw [← roots] at head lacks
  cases valids with
  | nil => cases head
  | @cons d rest valid valids =>
    intro name hn u hu
    rw [treesOf, names_append, names_of_lacks valids unquoted.2 lacks, List.append_nil] at hn
    exact names_of_word valid unopened.1 (.inr (Option.some.inj head)) name hn u (List.mem_append_right _ hu)

/-- the name of a parameter is no keyword that comes in its place -/
theorem names_of_parameter (isParameter : p.lhs = parameter) :
    ∀ name ∈ names (treesOf parts), ∀ u ∈ otherWords parameter (treesOf parts), u.isWord name = false := by
  intro name hn u hu
  rw [otherWords] at hu
  rcases (Production.legible_checked p mem).2.2.2.1 isParameter with ⟨head, lacks, bare⟩ | ⟨head, second, lacks⟩
  · rw [← roots] at head lacks bare
    rw [child?_of_lacks valids unquoted bare] at hu
    cases valids with
    | nil => cases head
    | @cons d rest valid valids =>
      rw [treesOf, names_append, names_of_lacks valids unquoted.2 lacks, List.append_nil] at hn
      refine names_of_word valid unopened.1 (.inl (Option.some.inj head)) name hn u (List.mem_append_left _ ?_)
      rw [isParameter]
      exact hu
  · rw [← roots] at head second lacks
    cases valids with
    | nil => cases head
    | @cons a rest validFront valids =>
      cases a with
      | leaf => cases head
      | node q more =>
        have isAccess : q.lhs = Nonterminal.accessibility := Symbol.nonterminal.inj (Option.some.inj head)
        cases valids with
        | nil => cases second
        | @cons d rest valid valids =>
          have shows : (node q more).trees = [.node (.phrase Nonterminal.accessibility) (node q more).loc (treesOf more)] := by
            rw [trees, isAccess]
            rfl
          rw [treesOf, shows] at hn hu
          rw [List.singleton_append, names, treesOf, names_append,
            names_of_lacks valids unquoted.2.2 lacks, List.append_nil] at hn
          refine names_of_word valid unopened.2.1 (.inl (Option.some.inj second)) name hn u ?_
          rw [root_node, isAccess]
          exact hu

/-- the names in a phrase are no keywords where they stand -/
theorem names_others (handed : (Symbol.nonterminal p.lhs).handedWords ⊆ words) :
    ∀ name ∈ names (treesOf parts), ∀ u ∈ otherWords p.lhs (treesOf parts), u.isWord name = false := by
  by_cases isMember : p.lhs = propertySignature ∨ p.lhs = methodSignature
  · have word : otherWords p.lhs (treesOf parts) = (Symbol.nonterminal p.lhs).handedWords := by
      rcases isMember with lhs | lhs
      · rw [lhs]
        rfl
      · rw [lhs]
        rfl
    rw [word]
    exact fun name hn u hu => names_of_member mem roots valids unquoted unopened isMember name hn u (handed hu)
  · by_cases isParameter : p.lhs = parameter
    · rw [isParameter]
      exact names_of_parameter mem roots valids unquoted unopened isParameter
    · have none : otherWords p.lhs (treesOf parts) = [] := by
        unfold otherWords
        split
        · rename_i lhs
          exact absurd (.inl lhs) isMember
        · rename_i lhs
          exact absurd (.inr lhs) isMember
        · rename_i lhs
          exact absurd lhs isParameter
        · rfl
      rw [none]
      exact fun _ _ _ h => absurd h List.not_mem_nil

end

/-- a dotted name has a name -/
theorem names_of_entity {p : Production} {parts : List Derivation} (mem : p ∈ productions)
    (roots : parts.map root = p.rhs) (isEntity : p.lhs = .entityName) : names (treesOf parts) ≠ [] := by
  have head := (head_of_reference p mem).2 isEntity
  rw [← roots] at head
  cases parts with
  | nil => cases head
  | cons d rest =>
    cases d with
    | node => cases head
    | leaf token =>
      obtain ⟨kind, text, start⟩ := token
      cases Symbol.terminal.inj (Option.some.inj head)
      rw [treesOf, names_append]
      exact List.cons_ne_nil text _

theorem RefersFree.mono {words more : List Terminal} {t : Tree} (h : t.RefersFree more) (sub : words ⊆ more) :
    t.RefersFree words := by
  unfold RefersFree at h ⊢
  split
  · obtain ⟨found, first, rest, isChild, isName, free⟩ := h
    exact ⟨found, first, rest, isChild, isName, fun u hu => free u (sub hu)⟩
  · trivial

/-- a phrase shows as legible trees if its parts do, and the node for it is legible -/
theorem shown_legible {n : Nonterminal} {loc : Loc} {children : List Tree} (inner : ∀ t ∈ children, t.Legible)
    (whole : n.shape ≠ .spliced → Tree.Legible (.node (.phrase n) loc children)) :
    ∀ t ∈ shown n loc children, t.Legible := by
  unfold shown
  split
  · exact inner
  · exact inner
  · rename_i spliced _
    exact List.forall_mem_singleton.mpr (whole spliced)

mutual

/-- the trees of a derivation whose names are no keywords at the front of phrases -/
theorem trees_legible : ∀ (d : Derivation) {words : List Terminal}, d.Valid → d.Unquoted →
    (∀ t ∈ d.tokens, t.kind.Matches t.text []) → d.Unopened words → d.root.handedWords ⊆ words →
      (∀ t ∈ d.trees, t.Legible) ∧ (d.root.refers = false → ∀ t ∈ d.trees, t.RefersFree typeWords)
  | .leaf token, _, _, _, lexemes, _, _ => by
    rw [trees]
    split
    · exact ⟨List.forall_mem_singleton.mpr (.leaf (lexemes token List.mem_cons_self)), fun _ =>
        List.forall_mem_singleton.mpr trivial⟩
    · exact ⟨fun _ h => absurd h List.not_mem_nil, fun _ _ h => absurd h List.not_mem_nil⟩
  | .node p parts, words, .node mem roots valids, ⟨named, unquoted⟩, lexemes, unopened, handed => by
    obtain ⟨inside, ⟨headHands, tailHands⟩, _⟩ := Production.legible_checked p mem
    have all := treesOf_legible parts valids unquoted lexemes unopened
      (fun s hs u hu => List.mem_append.mpr ((List.mem_append.mp (headHands s (roots ▸ hs) u hu)).imp_right (handed ·)))
      (roots ▸ tailHands)
    have references : p.lhs ≠ .moreReferences → (Label.phrase p.lhs).inherits = false →
        ∀ t ∈ treesOf parts, t.RefersFree typeWords := by
      intro several base t ht
      obtain ⟨d, hd, shows⟩ := List.mem_flatMap.mp (treesOf_eq_flatMap parts ▸ ht)
      cases refers : d.root.refers with
      | false => exact (all d hd).2 refers t shows
      | true =>
        obtain rfl := eq_of_refers mem several base (roots ▸ List.mem_map_of_mem hd) refers
        have valid := (allValid_iff parts).mp valids d hd
        obtain ⟨e, rfl, root⟩ := List.map_eq_singleton_iff.mp roots
        obtain rfl := List.mem_singleton.mp hd
        exact RefersFree.mono (refersFree_of_unopened valid root unopened.1 t shows) handed
    have inner : ∀ t ∈ treesOf parts, t.Legible := by
      intro t ht
      obtain ⟨d, hd, shows⟩ := List.mem_flatMap.mp (treesOf_eq_flatMap parts ▸ ht)
      exact (all d hd).1 t shows
    rw [trees]
    refine ⟨shown_legible inner fun spliced => .node inner (fun l hl => ?_)
      (names_others mem roots valids unquoted unopened handed) (names_of_entity mem roots) (references ?_), fun other =>
      shown_of_others (fun _ => refersFree_node) other fun flat => references ?_ ?_⟩
    · exact treesOf_isFor parts valids unquoted l fun s hs => (inside named l hl).1 s (roots ▸ hs)
    · intro e
      rw [e] at spliced
      exact spliced rfl
    · intro e
      rw [root, e] at other
      cases other
    · exact inherits_of_shape p.lhs p.lhs.mem_all flat

theorem treesOf_legible : ∀ (ds : List Derivation) {words : List Terminal}, AllValid ds → UnquotedAll ds →
    (∀ t ∈ tokensOf ds, t.kind.Matches t.text []) → UnopenedAll words ds →
    (∀ s ∈ (ds.map root).head?, s.handedWords ⊆ words) → (∀ s ∈ (ds.map root).tail, s.handedWords = []) →
      ∀ d ∈ ds, (∀ t ∈ d.trees, t.Legible) ∧ (d.root.refers = false → ∀ t ∈ d.trees, t.RefersFree typeWords)
  | [], _, _, _, _, _, _, _ => fun _ h => absurd h List.not_mem_nil
  | d :: rest, _, .cons valid valids, ⟨unquoted, unquotedAll⟩, lexemes, ⟨unopened, unopenedAll⟩, head, tail => by
    rw [tokensOf] at lexemes
    obtain ⟨lexemes, lexemesAll⟩ := List.forall_mem_append.mp lexemes
    have none : ∀ s ∈ rest.map root, s.handedWords = [] := tail
    refine List.forall_mem_cons.mpr ⟨trees_legible d valid unquoted lexemes unopened (head _ rfl),
      treesOf_legible rest valids unquotedAll lexemesAll unopenedAll (fun s hs => ?_) fun s hs =>
        none s (List.mem_of_mem_tail hs)⟩
    rw [none s (List.mem_of_mem_head? hs)]
    exact List.nil_subset _

end

end Derivation

/-! ## Texts -/

/-- the tokens of a text are lexemes -/
theorem Spelled.lexemes {place : Cursor} {text : Text} {tokens : List Token} (h : Spelled place text tokens) :
    ∀ t ∈ tokens, t.kind.Matches t.text [] := by
  induction h with
  | nil => exact fun _ h => absurd h List.not_mem_nil
  | cons _ _ isToken _ ih => exact List.forall_mem_cons.mpr ⟨isToken.alone, ih⟩

/-- the trees of the elements of a text that is parsed, if no name of a member is a string literal -/
theorem elementTrees_legible {source : Text} {d : Derivation} (h : parse source = .ok d) (unquoted : d.Unquoted) :
    ∀ t ∈ d.elementTrees, t.Legible := by
  obtain ⟨states, leads, scanned⟩ := leads_of_parse h
  have explains := explains_of_parse h
  have valid := explains.valid
  cases valid with
  | leaf => cases explains.root
  | @node p parts mem roots valids =>
    have handsOn := (Production.legible_checked p mem).2.1
    have isFile : p.lhs = .file := Symbol.nonterminal.inj explains.root
    have all := Derivation.treesOf_legible parts valids unquoted.2 explains.spelled.lexemes
      (leads.unopened scanned.plain) (fun s hs u hu => ?_) (roots ▸ handsOn.2)
    · intro t ht
      rw [Derivation.elementTrees, Derivation.treesOf_eq_flatMap] at ht
      obtain ⟨d, hd, ht⟩ := List.mem_flatMap.mp ht
      exact (all d hd).1 t ht
    · have none := handsOn.1 s (roots ▸ hs) u hu
      rw [isFile] at none
      cases none

end Typings
