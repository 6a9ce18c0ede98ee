import Typings.Proofs.Grammar.Follows
/-!
# Keywords in front of a type

Where a type can begin, the words for the predefined types can come too.  A type begins behind a token, or
where another type begins, so this is the state in which its first token is looked for.

* `Terminal.predefinedWords`             the words for the predefined types;
* `Symbol.opensType`               a symbol that begins where a type begins;
* `Automaton.Item.reads`           a state reads what the phrase behind a dot can begin with;
* `Automaton.acts_of_typeWord`     a state in front of a type has an action for the words.
-/

namespace Typings

/-- the words for the predefined types -/
def Terminal.predefinedWords : List Terminal := [ANY, NUMBER, BOOLEAN, STRINGTYPE, VOID]

namespace Symbol

def isTerminal : Symbol → Bool
  | terminal _ => true
  | nonterminal _ => false

/-- a phrase that begins where a type begins -/
def opensType : Symbol → Bool
  | terminal _ => false
  | nonterminal n => n == .typeExpr || n == .primaryType || n == .arrayType

/-- a type reference, or several of them -/
def refers : Symbol → Bool
  | terminal _ => false
  | nonterminal n => n == .typeReference || n == .moreReferences

/-- a phrase can begin with a terminal, by no more than `fuel` phrases one at the front of the other -/
def startsWithin (t : Terminal) : Nat → Symbol → Bool
  | _, terminal u => u == t
  | 0, nonterminal _ => false
  | fuel + 1, nonterminal n => productions.any fun p => p.lhs == n && match p.rhs.head? with
    | none => false
    | some s => s.startsWithin t fuel

end Symbol

namespace Automaton

/-! ## Types in the grammar -/

/-- where types and references to them stand in the grammar, and what predefined types begin with -/
theorem types_checked :
    (∀ p ∈ productions,
      (∀ s ∈ p.rhs.head?, s.opensType = true → (Symbol.nonterminal p.lhs).opensType = true) ∧
      (p.rhs.IsChain fun s s' => s'.opensType = true → s.isTerminal = true) ∧
      ∀ s ∈ p.rhs, s.refers = true →
        p = ⟨.primaryType, [.nonterminal .typeReference]⟩ ∨ p.lhs = .moreReferences ∨
          p.lhs = .interfaceExtends ∨ p.lhs = .classExtends ∨ p.lhs = .classImplements) ∧
    ∀ t ∈ Terminal.predefinedWords, (Symbol.nonterminal .primaryType).startsWithin t 2 = true := by
  decide +kernel

/-- a phrase at the front of which a type begins begins where a type begins -/
theorem opensType_of_head (p : Production) (mem : p ∈ productions) : ∀ s ∈ p.rhs.head?,
    s.opensType = true → (Symbol.nonterminal p.lhs).opensType = true :=
  (types_checked.1 p mem).1

/-- further back a type begins behind a token -/
theorem opensType_behind (p : Production) (mem : p ∈ productions) :
    p.rhs.IsChain fun s s' => s'.opensType = true → s.isTerminal = true :=
  (types_checked.1 p mem).2.1

/-- a type reference is a type, or a class or an interface has it as a base -/
theorem cases_of_refers (p : Production) (mem : p ∈ productions) : ∀ s ∈ p.rhs, s.refers = true →
    p = ⟨.primaryType, [.nonterminal .typeReference]⟩ ∨ p.lhs = .moreReferences ∨
      p.lhs = .interfaceExtends ∨ p.lhs = .classExtends ∨ p.lhs = .classImplements :=
  (types_checked.1 p mem).2.2

/-- a type can be a word for a predefined type -/
theorem starts_of_typeWord :
    ∀ t ∈ Terminal.predefinedWords, (Symbol.nonterminal .primaryType).startsWithin t 2 = true :=
  types_checked.2

/-! ## States in front of a type -/

/-- a state reads what the phrase behind a dot can begin with -/
theorem Item.reads {t : Terminal} {fuel : Nat} {state f i : Nat} {p : Production} {s : Symbol}
    (item : Item state f p i) (hi : p.rhs[i]? = some s) (starts : s.startsWithin t fuel = true) :
    ∃ next, next? state (.terminal t) = some next := by
  induction fuel generalizing f p i s with
  | zero =>
    cases s with
    | terminal u =>
      obtain rfl : u = t := eq_of_beq starts
      exact item.next hi
    | nonterminal n => cases starts
  | succ fuel ih =>
    cases s with
    | terminal u =>
      obtain rfl : u = t := eq_of_beq starts
      exact item.next hi
    | nonterminal n =>
      obtain ⟨q, mem, both⟩ := List.any_eq_true.mp starts
      obtain ⟨lhs, deeper⟩ := Bool.and_eq_true_iff.mp both
      obtain rfl : q.lhs = n := eq_of_beq lhs
      cases first : q.rhs.head? with
      | none =>
        rw [first] at deeper
        cases deeper
      | some s =>
        rw [first] at deeper
        obtain ⟨g, entered⟩ := item.enter hi mem
        exact ih entered (by rw [← List.head?_eq_getElem?, first]) deeper

/-- a state in front of a type has an action for the words for the predefined types -/
theorem acts_of_typeWord {state next : Nat} (h : next? state (.nonterminal .primaryType) = some next)
    {t : Terminal} (word : t ∈ Terminal.predefinedWords) : action state t ≠ none := by
  obtain ⟨f, p, i, item, hi⟩ := exists_item_of_next h
  obtain ⟨after, reads⟩ := item.reads hi (starts_of_typeWord t word)
  rw [action_of_next reads]
  exact Option.some_ne_none _

end Automaton

end Typings
