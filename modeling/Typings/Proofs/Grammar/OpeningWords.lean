import Typings.Proofs.Grammar.TypeWords
/-!
# Keywords in the place of a name

Where a phrase begins with a name it may begin with a keyword instead: a type with the word for a
predefined type, a member with `new`, a parameter with its accessibility.  A state in front of the phrase
reads these keywords.

* `Terminal.typeWords`, `accessWords`      the keywords that a type or a parameter can begin with;
* `Symbol.openingWords`                    those of the phrases in a type;
* `Automaton.reads_of_openingWord`         a state in front of a phrase reads them.
-/

namespace Typings

namespace Terminal

/-- the keywords that a type can begin with -/
def typeWords : List Terminal := [ANY, NUMBER, BOOLEAN, STRINGTYPE, VOID, TYPEOF, NEW]

/-- the keywords that a parameter can begin with -/
def accessWords : List Terminal := [PUBLIC, PRIVATE, PROTECTED]

end Terminal

namespace Symbol
open Terminal

/-- the keywords that a phrase in a type can begin with -/
def openingWords : Symbol → List Terminal
  | nonterminal .typeExpr => typeWords
  | nonterminal .parameterList | nonterminal .anyParameter | nonterminal .parameter => accessWords
  | nonterminal .objectMembers | nonterminal .typeMember => [NEW]
  | _ => []

end Symbol

namespace Automaton

/-- a phrase can begin with its opening words -/
theorem starts_of_openingWord : ∀ n ∈ Nonterminal.all, ∀ t ∈ (Symbol.nonterminal n).openingWords,
    (Symbol.nonterminal n).startsWithin t 4 = true := by
  decide +kernel

/-- a state in front of a phrase reads the keywords that the phrase can begin with -/
theorem reads_of_openingWord {state next : Nat} {n : Nonterminal}
    (h : next? state (.nonterminal n) = some next) {t : Terminal}
    (word : t ∈ (Symbol.nonterminal n).openingWords) :
    ∃ after, next? state (.terminal t) = some after := by
  obtain ⟨f, p, i, item, hi⟩ := exists_item_of_next h
  exact item.reads hi (starts_of_openingWord n n.mem_all t word)

end Automaton

end Typings
