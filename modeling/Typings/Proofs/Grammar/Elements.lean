import Typings.Proofs.Grammar.Follows
/-!
# Where an element of a file begins

An element begins with one of four keywords.  No phrase goes on with any of them, and behind the
elements of a file the parser reads an element as it does at the start.

* `Terminal.starters`                   the four keywords;
* `Automaton.Item.not_reads_starter`    at the end of a production none of them is read;
* `Automaton.next?_behind_elements`     behind elements a state reads the same as the first one.
-/

namespace Typings

/-- the keywords that an element of a file begins with -/
def Terminal.starters : List Terminal := [.EXPORT, .DECLARE, .IMPORT, .INTERFACE]

namespace Automaton
open ItemSet

/-! ## Nothing goes on with a starter -/

/-- the symbols that a starter can come behind -/
def beforeStarters : List Symbol := [.nonterminal .fileElements, .nonterminal .moduleElements,
  .terminal .LBRACE, .terminal .EXPORT, .terminal .DECLARE]

/-- nothing else is in front of a starter, and none of them is at the end of a production -/
theorem beforeStarters_checked : ∀ p ∈ productions,
    (∀ xy ∈ p.rhs.zip p.rhs.tail,
      (∃ t ∈ Terminal.starters, (Lookahead.first xy.2).contains t = true) → xy.1 ∈ beforeStarters) ∧
    (p.lhs ≠ .file → ∀ s ∈ p.rhs.getLast?, s ∉ beforeStarters) := by
  decide +kernel

/-- a state other than the first is entered by one symbol -/
theorem entered {state : Nat} {k : ItemSet} (hk : kernels[state]? = some k) :
    k = startsOf .file ∨ ∃ k₀ s, k = advance k₀ s :=
  kernels_induction (P := fun k => k = startsOf .file ∨ ∃ k₀ s, k = advance k₀ s) (.inl rfl)
    (fun k s _ _ => .inr ⟨k, s, rfl⟩) hk

/-- at the end of a production no starter is read, unless a whole file ends there -/
theorem Item.not_reads_starter {state f : Nat} {p : Production} {t : Terminal}
    (h : Item state f p p.rhs.length) (part : p.lhs ≠ .file) (starter : t ∈ Terminal.starters) :
    next? state (.terminal t) = none := by
  by_contra reads
  obtain ⟨next, reads⟩ := Option.ne_none_iff_exists'.mp reads
  obtain ⟨k, hk, has⟩ := h
  have mem := mem_productions_of_numbered has.mem
  have nonempty : p.rhs.length ≠ 0 := fun e =>
    part (eq_file_of_rhs_nil p mem (List.length_eq_zero_iff.mp e))
  obtain ⟨n, hn⟩ := Nat.exists_eq_succ_of_ne_zero nonempty
  rw [hn] at has
  have has := closure_succ has
  rcases entered hk with rfl | ⟨k₀, s, rfl⟩
  · exact Nat.succ_ne_zero n (has_startsOf has).1
  · -- all dots that were moved have the symbol `s` in front of them
    have last := (has_advance_succ.mp has).2
    have isLast : s ∈ p.rhs.getLast? := by
      rw [List.getLast?_eq_getElem?, hn]
      exact last
    refine (beforeStarters_checked p mem).2 part s isLast ?_
    obtain ⟨g, q, j, item, hj⟩ := exists_item_of_next reads
    obtain ⟨k', hk', has'⟩ := item
    rw [hk] at hk'
    cases hk'
    refine closure_induction (Q := fun _ q j => ∀ x, q.rhs[j]? = some x →
      (Lookahead.first x).contains t = true → s ∈ beforeStarters) (fun g q j moved x hx first => ?_)
      (fun g q j r r' has ih dot mem x hx first => ?_) has' (.terminal t) hj (Lookahead.first_terminal t)
    · cases j with
      | zero => exact absurd moved not_has_advance_zero
      | succ j =>
        obtain ⟨has, hs⟩ := has_advance_succ.mp moved
        refine (beforeStarters_checked q (mem_productions_of_numbered has.mem)).1 (s, x) ?_ ⟨t, starter, first⟩
        refine List.mem_of_getElem? (i := j) (List.getElem?_zip_eq_some.mpr ⟨hs, ?_⟩)
        rw [List.getElem?_tail, hx]
    · have head : r'.rhs.head? = some x := by rw [List.head?_eq_getElem?, hx]
      exact ih _ dot (Lookahead.first_of_head (mem_productions_of_numbered mem) head first)

/-! ## Behind elements -/

/-- where elements stand in the grammar, and what they begin with -/
theorem elements_checked :
    (∀ p ∈ productions,
      (p.lhs = .file → p.rhs = [] ∨ p.rhs = [.nonterminal .fileElements]) ∧
      (p.lhs = .fileElements →
        p.rhs = [.nonterminal .element] ∨ p.rhs = [.nonterminal .fileElements, .nonterminal .element]) ∧
      (.nonterminal .fileElements ∈ p.rhs → p.lhs = .file ∨ p.lhs = .fileElements) ∧
      (p.lhs ≠ .file → p.lhs ≠ .fileElements →
        ∀ s ∈ p.rhs.head?, s ≠ .nonterminal .element ∧ s ≠ .nonterminal .fileElements)) ∧
    (⟨.file, [.nonterminal .fileElements]⟩ ∈ productions ∧
      ⟨.fileElements, [.nonterminal .element]⟩ ∈ productions ∧
      ⟨.fileElements, [.nonterminal .fileElements, .nonterminal .element]⟩ ∈ productions) ∧
    ∀ t ∈ Terminal.all,
      (Lookahead.first (.nonterminal .fileElements)).contains t = true → t ∈ Terminal.starters := by
  decide +kernel

theorem first_fileElements : ∀ t ∈ Terminal.all,
    (Lookahead.first (.nonterminal .fileElements)).contains t = true → t ∈ Terminal.starters :=
  elements_checked.2.2

theorem rhs_of_file (p : Production) (mem : p ∈ productions) : p.lhs = .file →
    p.rhs = [] ∨ p.rhs = [.nonterminal .fileElements] :=
  (elements_checked.1 p mem).1

theorem rhs_of_fileElements (p : Production) (mem : p ∈ productions) : p.lhs = .fileElements →
    p.rhs = [.nonterminal .element] ∨ p.rhs = [.nonterminal .fileElements, .nonterminal .element] :=
  (elements_checked.1 p mem).2.1

theorem lhs_of_fileElements_mem (p : Production) (mem : p ∈ productions) :
    .nonterminal .fileElements ∈ p.rhs → p.lhs = .file ∨ p.lhs = .fileElements :=
  (elements_checked.1 p mem).2.2.1

theorem head_ne_element (p : Production) (mem : p ∈ productions) : p.lhs ≠ .file →
    p.lhs ≠ .fileElements →
    ∀ s ∈ p.rhs.head?, s ≠ .nonterminal .element ∧ s ≠ .nonterminal .fileElements :=
  (elements_checked.1 p mem).2.2.2

theorem mem_fileElements :
    ⟨.file, [.nonterminal .fileElements]⟩ ∈ productions ∧
      ⟨.fileElements, [.nonterminal .element]⟩ ∈ productions ∧
      ⟨.fileElements, [.nonterminal .fileElements, .nonterminal .element]⟩ ∈ productions :=
  elements_checked.2.1

/-- the two states as sets of items -/
theorem kernel_behind_elements {next : Nat} (hs : next? 0 (.nonterminal .fileElements) = some next) :
    kernels[next]? = some (advance (startsOf .file) (.nonterminal .fileElements)) := by
  obtain ⟨k, hk⟩ := kernel_behind hs
  obtain ⟨k₀, hk₀, rfl⟩ := kernel_of_next hs hk
  rw [kernels_zero] at hk₀
  cases hk₀
  exact hk

/-- at the start the dots stand in front of elements -/
theorem has_elements {p : Production} (mem : p ∈ productions) (lhs : p.lhs = .fileElements) :
    ∃ f, Has (closure (startsOf .file)) f p 0 := by
  obtain ⟨g, hg⟩ := exists_numbered mem_fileElements.1
  have file : Has (startsOf .file) g _ 0 := ⟨hg, Nat.zero_le _, (testBit_startsOf _ _).mpr ⟨_, hg, rfl⟩⟩
  obtain ⟨f, hf⟩ := exists_numbered mem
  exact ⟨f, closure_closed (has_closure file) (by rw [lhs]; rfl) hf⟩

/-- behind elements a dot stands in front of an element -/
theorem has_element_behind :
    ∃ f, Has (closure (advance (startsOf .file) (.nonterminal .fileElements))) f
      ⟨.fileElements, [.nonterminal .fileElements, .nonterminal .element]⟩ 1 := by
  obtain ⟨f, h⟩ := has_elements mem_fileElements.2.2 rfl
  exact ⟨f, has_closure (has_advance_succ.mpr ⟨h, rfl⟩)⟩

section
variable {f i : Nat} {p : Production}

/-- what is brought in at the start is the elements, or it is brought in behind elements too -/
theorem has_behind_elements (h : Has (closure (startsOf .file)) f p i) :
    i = 0 ∧ (p.lhs = .file ∨ p.lhs = .fileElements ∨
      Has (closure (advance (startsOf .file) (.nonterminal .fileElements))) f p 0) := by
  refine closure_induction (Q := fun f p i => i = 0 ∧ (p.lhs = .file ∨ p.lhs = .fileElements ∨
    Has (closure (advance (startsOf .file) (.nonterminal .fileElements))) f p 0)) (fun f p i start => ?_)
    (fun f p i g q has ih dot mem => ?_) h
  · obtain ⟨zero, lhs⟩ := has_startsOf start
    exact ⟨zero, .inl lhs⟩
  · obtain ⟨rfl, isFile | isElements | there⟩ := ih
    · rcases rhs_of_file p (mem_productions_of_numbered has.mem) isFile with none | one
      · rw [none] at dot
        cases dot
      · rw [one] at dot
        exact ⟨rfl, .inr (.inl (Symbol.nonterminal.inj (Option.some.inj dot)).symm)⟩
    · rcases rhs_of_fileElements p (mem_productions_of_numbered has.mem) isElements with one | two
      · rw [one] at dot
        obtain ⟨_, element⟩ := has_element_behind
        exact ⟨rfl, .inr (.inr (closure_closed element dot mem))⟩
      · rw [two] at dot
        exact ⟨rfl, .inr (.inl (Symbol.nonterminal.inj (Option.some.inj dot)).symm)⟩
    · exact ⟨rfl, .inr (.inr (closure_closed there dot mem))⟩

/-- what is brought in behind elements is brought in at the start too -/
theorem has_of_behind_elements
    (h : Has (closure (advance (startsOf .file) (.nonterminal .fileElements))) f p i) :
    1 ≤ i ∧ (p.lhs = .file ∨ p.lhs = .fileElements) ∨ i = 0 ∧ Has (closure (startsOf .file)) f p 0 := by
  refine closure_induction (Q := fun f p i => 1 ≤ i ∧ (p.lhs = .file ∨ p.lhs = .fileElements) ∨
    i = 0 ∧ Has (closure (startsOf .file)) f p 0) (fun f p i moved => ?_)
    (fun f p i g q has ih dot mem => ?_) h
  · cases i with
    | zero => exact absurd moved not_has_advance_zero
    | succ i =>
      obtain ⟨has, hi⟩ := has_advance_succ.mp moved
      exact .inl ⟨Nat.succ_pos i, lhs_of_fileElements_mem p (mem_productions_of_numbered has.mem)
        (List.mem_of_getElem? hi)⟩
  · right
    obtain ⟨pos, lhs⟩ | ⟨rfl, there⟩ := ih
    · -- the dot stands in front of the element that comes behind elements
      refine ⟨rfl, ?_⟩
      obtain ⟨i, rfl⟩ := Nat.exists_eq_succ_of_ne_zero (Nat.ne_of_gt pos)
      have isElement : some (Symbol.nonterminal q.lhs) = some (.nonterminal .element) := by
        rcases lhs with isFile | isElements
        · rcases rhs_of_file p (mem_productions_of_numbered has.mem) isFile with e | e
          · rw [e] at dot
            cases dot
          · rw [e] at dot
            cases dot
        · rcases rhs_of_fileElements p (mem_productions_of_numbered has.mem) isElements with e | e
          · rw [e] at dot
            cases dot
          · rw [e] at dot
            cases i with
            | zero => exact dot.symm
            | succ i => cases dot
      obtain ⟨_, elements⟩ := has_elements mem_fileElements.2.1 rfl
      exact closure_closed elements isElement.symm mem
    · exact ⟨rfl, closure_closed there dot mem⟩

end

/-- what a symbol leads to depends on the dots in front of it only -/
theorem advance_congr {a b : ItemSet} {s : Symbol} (same : ∀ f p i, p.rhs[i]? = some s →
    (Has (closure a) f p i ↔ Has (closure b) f p i)) : advance a s = advance b s := by
  unfold advance
  refine congrArg (· <<< 1) (Nat.eq_of_testBit_eq fun k => ?_)
  rw [Nat.testBit_and, Nat.testBit_and]
  refine Bool.eq_iff_iff.mpr ?_
  rw [Bool.and_eq_true, Bool.and_eq_true]
  refine and_congr_left fun dot => ?_
  obtain ⟨f, p, i, mem, hi, rfl⟩ := (testBit_before s k).mp dot
  have le := Nat.le_of_lt (List.getElem?_eq_some_iff.mp hi).1
  exact ⟨fun bit => ((same f p i hi).mp ⟨mem, le, bit⟩).bit,
    fun bit => ((same f p i hi).mpr ⟨mem, le, bit⟩).bit⟩

/-- behind the elements of a file a state reads the same as the first one, but for more elements -/
theorem advance_behind_elements {s : Symbol} (element : s ≠ .nonterminal .element)
    (elements : s ≠ .nonterminal .fileElements) :
    advance (advance (startsOf .file) (.nonterminal .fileElements)) s = advance (startsOf .file) s := by
  refine advance_congr fun f p i hi => ?_
  have part : p ∈ productions → ¬ (p.lhs = .file ∨ p.lhs = .fileElements) := by
    have inRhs := List.mem_of_getElem? hi
    rintro mem (isFile | isElements)
    · rcases rhs_of_file p mem isFile with e | e
      · simp [e] at inRhs
      · simp [e, elements] at inRhs
    · rcases rhs_of_fileElements p mem isElements with e | e
      · simp [e, element] at inRhs
      · simp [e, element, elements] at inRhs
  constructor
  · intro has
    have part := part (mem_productions_of_numbered has.mem)
    obtain ⟨_, lhs⟩ | ⟨rfl, there⟩ := has_of_behind_elements has
    · exact absurd lhs part
    · exact there
  · intro has
    have part := part (mem_productions_of_numbered has.mem)
    obtain ⟨rfl, lhs | lhs | there⟩ := has_behind_elements has
    · exact absurd (.inl lhs) part
    · exact absurd (.inr lhs) part
    · exact there

theorem next?_behind_elements {next : Nat} (hs : next? 0 (.nonterminal .fileElements) = some next)
    {s : Symbol} (element : s ≠ .nonterminal .element) (elements : s ≠ .nonterminal .fileElements) :
    next? next s = next? 0 s := by
  refine Option.ext fun state => ?_
  rw [next?_eq_some_iff, next?_eq_some_iff, kernels_zero, kernel_behind_elements hs]
  constructor
  · rintro ⟨_, e, ne, rfl⟩
    cases e
    rw [advance_behind_elements element elements] at ne ⊢
    exact ⟨_, rfl, ne, rfl⟩
  · rintro ⟨_, e, ne, rfl⟩
    cases e
    rw [← advance_behind_elements element elements] at ne ⊢
    exact ⟨_, rfl, ne, rfl⟩

end Automaton

end Typings
