import Typings.Proofs.Grammar.States
import Typings.Proofs.Token.Matching
import Typings.Syntax.Parse
/-!
# The stack fits the table

The states of a stack are those that its symbols lead to, so the parts of a production that a state
reduces by are on the stack, and the state below has a transition on the phrase.

* `Parser.OnPath`             each state of a stack comes from the one below by its symbol;
* `Parser.OnPath.trace`       an item of the top state tells the symbols on the stack;
* `Parser.OnPath.reduce`      a reduction finds its parts;
* `Parser.level`, `Parser.fuelled`   reductions come to an end;
* `Parser.react_fits`         a reaction never derails.
-/

namespace Typings

namespace Parser
open Automaton

/-! ## Paths -/

/-- each state of a stack comes from the one below by the symbol that is read on the way -/
inductive OnPath : List Frame → Prop
  | nil : OnPath []
  | cons {f : Frame} {below : List Frame} (path : OnPath below)
      (step : next? (top below) f.derivation.root = some f.state) : OnPath (f :: below)

/-- the symbols of the uppermost frames, the lowest of them first -/
def symbolsAbove (n : Nat) (stack : List Frame) : List Symbol :=
  ((stack.take n).map fun f => f.derivation.root).reverse

theorem symbolsAbove_succ (n : Nat) (f : Frame) (below : List Frame) :
    symbolsAbove (n + 1) (f :: below) = symbolsAbove n below ++ [f.derivation.root] := by
  unfold symbolsAbove
  rw [List.take_succ_cons, List.map_cons, List.reverse_cons]

theorem roots_of_take (n : Nat) (stack : List Frame) :
    ((stack.take n).map (·.derivation)).reverse.map Derivation.root = symbolsAbove n stack := by
  unfold symbolsAbove
  rw [List.map_reverse, List.map_map]
  rfl

namespace OnPath

theorem drop {stack : List Frame} (h : OnPath stack) (n : Nat) : OnPath (stack.drop n) := by
  induction h generalizing n with
  | nil =>
    rw [List.drop_nil]
    exact nil
  | cons path step ih =>
    cases n with
    | zero => exact cons path step
    | succ n => exact ih n

/-- what stands before the dot of an item of the top state is what was read last -/
theorem trace {stack : List Frame} {first i : Nat} {p : Production} (h : OnPath stack)
    (item : Item (top stack) first p i) :
    i ≤ stack.length ∧ symbolsAbove i stack = p.rhs.take i ∧
      Item (top (stack.drop i)) first p 0 := by
  induction i generalizing stack with
  | zero => exact ⟨Nat.zero_le _, rfl, item⟩
  | succ i ih =>
    cases h with
    | nil => exact absurd item Item.not_initial
    | cons path step =>
      rename_i f below
      obtain ⟨before, hi⟩ := item.back step
      obtain ⟨deep, same, start⟩ := ih path before
      refine ⟨Nat.succ_le_succ deep, ?_, start⟩
      rw [symbolsAbove_succ, same, List.take_add_one, hi]
      rfl

/-- a reduction finds its parts on the stack, and a dot in front of its phrase below them -/
theorem reduce {stack : List Frame} {t : Terminal} {p : Production} (h : OnPath stack)
    (act : action (top stack) t = some (.reduce p)) :
    ∃ d, reduce? p stack = some (d, stack.drop p.rhs.length) ∧ d.root = .nonterminal p.lhs ∧
      symbolsAbove p.rhs.length stack = p.rhs ∧ p.rhs.length ≤ stack.length ∧ p ∈ productions ∧
        ∃ first, Item (top (stack.drop p.rhs.length)) first p 0 := by
  obtain ⟨first, item⟩ := item_of_reduce act
  obtain ⟨deep, same, start⟩ := h.trace item
  rw [List.take_length] at same
  have roots := (roots_of_take p.rhs.length stack).trans same
  have found : reduce? p stack = some (.node p ((stack.take p.rhs.length).map (·.derivation)).reverse,
      stack.drop p.rhs.length) := by rw [reduce?, if_pos roots]
  exact ⟨_, found, rfl, same, deep, item.mem_productions, first, start⟩

/-- a phrase other than a whole file leads on from a state with a dot in front of it -/
theorem goto {stack : List Frame} {first : Nat} {p : Production} (h : OnPath stack)
    (item : Item (top stack) first p 0) (part : p.lhs ≠ .file) :
    ∃ state, Automaton.goto (top stack) p.lhs = some state := by
  rw [goto_eq_next?]
  cases h with
  | nil =>
    rcases item.initial with isFile | ⟨_, q, j, before, hj⟩
    · exact absurd isFile part
    · exact before.next hj
  | cons path step =>
    obtain ⟨_, q, j, before, hj⟩ := item.reached step
    exact before.next hj

/-- a whole file stands on the bottom -/
theorem eq_nil_of_file {stack : List Frame} {first : Nat} {p : Production} (h : OnPath stack)
    (item : Item (top stack) first p 0) (isFile : p.lhs = .file) : stack = [] := by
  cases h with
  | nil => rfl
  | cons path step =>
    obtain ⟨_, q, j, before, hj⟩ := item.reached step
    rw [isFile] at hj
    exact absurd (List.mem_of_getElem? hj) (file_not_mem_rhs q before.mem_productions)

end OnPath

/-! ## Reductions come to an end

A reduction by two or more parts makes the stack shorter.  One that passes on a single part goes to
a higher level. -/

/-- the level of a symbol: a phrase that can be written by one part is above this part -/
def level : Symbol → Nat
  | .terminal _ => 0
  | .nonterminal n =>
    match n with
    | .moduleElements => 5
    | .file | .moduleElement | .classMembers | .objectMembers | .typeExpr => 4
    | .fileElements | .moduleAmbientElement | .classMember | .typeMember | .parameterList
    | .primaryType => 3
    | .element | .importClause | .ambientBody | .enumMember | .memberVariable | .propertySignature
    | .anyParameter | .typeReference => 2
    | .interfaceElement | .defaultBinding | .binding | .ambientInterface | .accessibility
    | .indexMember | .moduleName | .memberSeparator | .propertyName | .parameter | .typeParameter
    | .predefinedType | .entityName => 1
    | _ => 0

theorem level_le (s : Symbol) : level s ≤ Nonterminal.all.length := by
  cases s with
  | terminal t => exact Nat.zero_le _
  | nonterminal n => cases n <;> decide

theorem level_lt : ∀ p ∈ productions, ∀ s ∈ p.rhs, p.rhs = [s] → level s < level p.lhs := by
  decide +kernel

/-- the level of the symbol on top of a stack -/
def topLevel : List Frame → Nat
  | [] => 0
  | f :: _ => level f.derivation.root

/-- the fuel is enough for all the reductions that a stack can still undergo -/
def Fuelled (fuel : Nat) (stack : List Frame) : Prop :=
  stack.length * (Nonterminal.all.length + 1) + (Nonterminal.all.length - topLevel stack) < fuel

theorem fuelled (stack : List Frame) :
    Fuelled ((stack.length + 1) * (Nonterminal.all.length + 1)) stack := by
  unfold Fuelled
  rw [Nat.succ_mul]
  omega

/-- a reduction leaves enough fuel for the others -/
theorem Fuelled.reduce {fuel : Nat} {stack : List Frame} {p : Production} {f : Frame}
    (h : Fuelled (fuel + 1) stack) (same : symbolsAbove p.rhs.length stack = p.rhs)
    (deep : p.rhs.length ≤ stack.length) (mem : p ∈ productions) (part : p.lhs ≠ .file)
    (root : f.derivation.root = .nonterminal p.lhs) :
    Fuelled fuel (f :: stack.drop p.rhs.length) := by
  have top : topLevel (f :: stack.drop p.rhs.length) = level p.lhs := by
    show level f.derivation.root = level p.lhs
    rw [root]
  have high := level_le (Symbol.nonterminal p.lhs)
  unfold Fuelled at h ⊢
  rw [top, List.length_cons, List.length_drop]
  have some : 0 < p.rhs.length := by
    rw [List.length_pos_iff]
    intro none
    exact part (eq_file_of_rhs_nil p mem none)
  by_cases single : p.rhs.length = 1
  · -- the phrase takes the place of its one part, which is on a lower level
    rw [single] at same deep ⊢
    cases stack with
    | nil => exact absurd deep (Nat.not_succ_le_zero 0)
    | cons g below =>
      have rhs : p.rhs = [g.derivation.root] := same.symm
      have lower : level g.derivation.root < level p.lhs :=
        level_lt p mem _ (by rw [rhs]; exact List.mem_cons_self) rhs
      have e : topLevel (g :: below) = level g.derivation.root := rfl
      rw [e] at h
      rw [List.length_cons] at h ⊢
      have : below.length + 1 - 1 + 1 = below.length + 1 := by omega
      rw [this]
      omega
  · -- the stack gets shorter
    have shorter : stack.length - p.rhs.length + 1 + 1 ≤ stack.length := by omega
    have := Nat.mul_le_mul_right (Nonterminal.all.length + 1) shorter
    rw [Nat.succ_mul] at this
    omega

/-! ## Reactions -/

/-- a reaction to a token keeps the stack on its path, reads every token but the end of the text,
and completes the text only there -/
def Fits (token : Token) : Reaction → Prop
  | .shifted next => OnPath next ∧ token.kind ≠ .END
  | .accepted _ => token.kind = .END
  | .refused next => OnPath next
  | .derailed => False

theorem reactWithin_fits {fuel : Nat} {stack : List Frame} (token : Token) (path : OnPath stack)
    (fuelled : Fuelled fuel stack) : Fits token (reactWithin fuel stack token) := by
  induction fuel generalizing stack with
  | zero => exact absurd fuelled (Nat.not_lt_zero _)
  | succ fuel ih =>
    rw [reactWithin]
    cases act : action (top stack) token.kind with
    | none => exact path
    | some act' =>
      cases act' with
      | shift state =>
        have step := action_shift act
        refine ⟨.cons path step, ?_⟩
        intro isEnd
        rw [isEnd, next?_end] at step
        cases step
      | reduce p =>
        obtain ⟨d, found, root, same, deep, mem, first, item⟩ := path.reduce act
        have below := path.drop p.rhs.length
        simp only [found]
        by_cases isFile : p.lhs = .file
        · rw [if_pos isFile, below.eq_nil_of_file item isFile, end_of_reduce_file act isFile]
          exact end_of_reduce_file act isFile
        · rw [if_neg isFile]
          obtain ⟨state, hgoto⟩ := below.goto item isFile
          simp only [hgoto]
          have step : next? (top (stack.drop p.rhs.length)) d.root = some state := by
            rw [root, ← goto_eq_next?, hgoto]
          exact ih (.cons below step) (fuelled.reduce same deep mem isFile root)

theorem react_fits {stack : List Frame} (token : Token) (path : OnPath stack) :
    Fits token (react stack token) := reactWithin_fits token path (fuelled stack)

theorem react_ne_derailed {stack : List Frame} (token : Token) (path : OnPath stack) :
    react stack token ≠ .derailed := by
  intro derailed
  have fits := react_fits token path
  rw [derailed] at fits
  exact fits

end Parser

end Typings
