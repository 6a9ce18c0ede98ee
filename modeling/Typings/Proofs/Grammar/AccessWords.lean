import Typings.Proofs.Grammar.OpeningWords
/-!
# Behind the keywords of accessibility

The keyword for the accessibility of a parameter is the one for that of a member of a class.  One state is
behind it, wherever it stands, so `static` and `constructor` may come there as behind the one of a member.

* `Automaton.Starts`            a production is at its front in some state;
* `Automaton.Starts.forth`      so are the productions of the phrases in it;
* `Automaton.next_unique`       a symbol that only one item reads leads to one state;
* `Automaton.acts_of_access`    behind a keyword for the accessibility, `static` and `constructor` may come.
-/

namespace Typings
open Terminal Nonterminal

namespace Automaton
open ItemSet

/-! ## Productions that are reached -/

/-- a production is at its front in some state -/
def Starts (p : Production) : Prop := ∃ state first, Item state first p 0

namespace Starts
variable {p q : Production}

/-- a file can begin with any of its productions -/
theorem file (isFile : p.lhs = .file) (mem : p ∈ productions) : Starts p := ⟨0, item_of_file isFile mem⟩

/-- the dot goes on behind any of the symbols of the production -/
theorem exists_item (h : Starts p) {i : Nat} (le : i ≤ p.rhs.length) : ∃ state first, Item state first p i := by
  induction i with
  | zero => exact h
  | succ i ih =>
    obtain ⟨state, first, item⟩ := ih (Nat.le_of_succ_le le)
    have hi : p.rhs[i]? = some p.rhs[i] := List.getElem?_eq_getElem le
    obtain ⟨next, step⟩ := item.next hi
    exact ⟨next, first, item.advance hi step⟩

/-- the productions of a phrase in the production -/
theorem forth (h : Starts p) (mem : q ∈ productions) (part : .nonterminal q.lhs ∈ p.rhs) : Starts q := by
  obtain ⟨i, inside, e⟩ := List.mem_iff_getElem.mp part
  obtain ⟨state, first, item⟩ := h.exists_item (Nat.le_of_lt inside)
  exact ⟨state, item.enter (by rw [List.getElem?_eq_getElem inside, e]) mem⟩

/-- productions that each have the phrase of the next one in them -/
theorem of_chain {ps : List Production} (h : Starts p) (mem : ∀ q ∈ ps, q ∈ productions)
    (chain : (p :: ps).IsChain fun p q => .nonterminal q.lhs ∈ p.rhs) : ∀ q ∈ p :: ps, Starts q := by
  induction ps generalizing p with
  | nil => exact List.forall_mem_singleton.mpr h
  | cons q ps ih =>
    obtain ⟨here, mem⟩ := List.forall_mem_cons.mp mem
    obtain ⟨part, chain⟩ := List.isChain_cons_cons.mp chain
    exact List.forall_mem_cons.mpr ⟨h, ih (h.forth here part) mem chain⟩

end Starts

/-- a production for each phrase around a member of a class -/
def aroundMembers : List Production := [
  ⟨fileElements, [.nonterminal element]⟩, ⟨element, [.nonterminal ambientElement]⟩,
  ⟨ambientElement, [DECLARE, ambientBody]⟩, ⟨ambientBody, [.nonterminal ambientClass]⟩,
  ⟨ambientClass, [CLASS, NAME, LBRACE, classMembers, RBRACE]⟩, ⟨classMembers, [.nonterminal classMember]⟩]

/-- the members of a class that go on with a keyword behind their accessibility -/
def markedMembers : List (Terminal × Production) := [
  (STATIC, ⟨memberFunction, [accessibility, STATIC, propertyName, callSignature]⟩),
  (CONSTRUCTOR, ⟨constructorDeclaration, [accessibility, CONSTRUCTOR, LPAR, RPAR]⟩)]

theorem markedMembers_checked : (∀ p ∈ aroundMembers, p ∈ productions) ∧
    (∀ m ∈ markedMembers, m.2 ∈ productions ∧ ⟨classMember, [.nonterminal m.2.lhs]⟩ ∈ productions) ∧
    ⟨.file, [.nonterminal fileElements]⟩ ∈ productions ∧
    ∀ t ∈ accessWords, before t = 2 ^ (before t).log2 ∧ ⟨accessibility, [.terminal t]⟩ ∈ productions := by
  decide +kernel

/-- such a member is at its front in some state -/
theorem starts_of_marked : ∀ m ∈ markedMembers, Starts m.2 := by
  intro m hm
  obtain ⟨around, marked, isFile, _⟩ := markedMembers_checked
  obtain ⟨mem, isMember⟩ := marked m hm
  have all := Starts.of_chain (Starts.file rfl isFile) around (by decide)
  have members := all ⟨classMembers, [.nonterminal classMember]⟩ (by decide)
  exact (members.forth isMember List.mem_cons_self).forth mem List.mem_cons_self

/-! ## One state behind a keyword -/

/-- a symbol that only one item has behind its dot leads to one state -/
theorem next_unique {s : Symbol} {n : Nat} (one : before s = 2 ^ n) {state state' next next' : Nat}
    (h : next? state s = some next) (h' : next? state' s = some next') : next = next' := by
  have advances : ∀ k, advance k s ≠ 0 → advance k s = 2 ^ n <<< 1 := by
    intro k some
    rw [advance, one, Nat.and_two_pow] at some ⊢
    cases bit : (closure k).testBit n with
    | true => rw [Bool.toNat_true, Nat.one_mul]
    | false =>
      rw [bit] at some
      exact absurd (by simp) some
  obtain ⟨k, _, some, rfl⟩ := next?_eq_some_iff.mp h
  obtain ⟨k', _, some', rfl⟩ := next?_eq_some_iff.mp h'
  rw [advances k some, advances k' some']

/-- at the end of a production there is an action for all that can come behind its phrase -/
theorem acts_of_continues {start state : Nat} {p : Production} {t : Terminal} (mem : p ∈ productions)
    (walk : walk? start p.rhs = some state) (continues : Continues start p.lhs t) : action state t ≠ none := by
  cases reads : next? state (.terminal t) with
  | none =>
    rw [action_of_continues mem walk continues reads]
    exact Option.some_ne_none _
  | some next =>
    rw [action_of_next reads]
    exact Option.some_ne_none _

/-- behind a keyword for the accessibility, `static` and `constructor` may come -/
theorem acts_of_access {state next : Nat} {t : Terminal} (access : t ∈ accessWords)
    (h : next? state (.terminal t) = some next) : ∀ m ∈ markedMembers, action next m.1 ≠ none := by
  intro m hm
  have each : ∀ m ∈ markedMembers, m.2.rhs[0]? = some (.nonterminal accessibility) ∧
      m.2.rhs[1]? = some (.terminal m.1) := by
    decide
  obtain ⟨first, second⟩ := each m hm
  obtain ⟨one, mem⟩ := markedMembers_checked.2.2.2 t access
  obtain ⟨front, f, item⟩ := starts_of_marked m hm
  obtain ⟨behind, step⟩ := item.next first
  obtain ⟨_, reads⟩ := (item.advance first step).next second
  -- the keyword is read in front of the member too, and leads to the same state there
  obtain ⟨g, entered⟩ := item.enter first mem
  obtain ⟨after, keyword⟩ := entered.next (s := .terminal t) rfl
  obtain rfl := next_unique one h keyword
  have walk : walk? front [.terminal t] = some next := by
    rw [walk?, keyword]
    rfl
  exact acts_of_continues mem walk (.next step reads)

end Automaton

end Typings
