import Typings.Proofs.Grammar.AccessWords
import Typings.Proofs.Grammar.Elements
/-!
# Keywords behind a type

A type can be the last thing in a declaration or in a member of a class, so the keywords that begin the next
one can come behind it.  One state is behind the last token of a type, wherever the type stands, so these
keywords may come there even where none of them fits.

* `Automaton.next_of_alone`          one state is behind a symbol that nothing else begins with;
* `Automaton.Comes`                  a terminal comes behind a phrase somewhere;
* `Terminal.declarationWords`, `classWords`     keywords that come behind a type;
* `Automaton.comes_behind_reference`, `comes_behind_predefined`     those that do, `new` apart.
-/

namespace Typings
open Terminal Nonterminal

/-- beside the left end of the production, its first symbol is only read at the left end of its phrase -/
def Production.Alone (p : Production) : Prop :=
  ∀ fq ∈ numbered, ∀ j ∈ List.range fq.2.rhs.length, fq.2.rhs[j]? = p.rhs[0]? →
    (Beside.items p 0).testBit (fq.1 + j) = true → j = 0 ∧ fq.2.lhs = p.lhs

instance (p : Production) : Decidable p.Alone := inferInstanceAs (Decidable (∀ fq ∈ numbered, _))

namespace Automaton
open ItemSet

/-! ## One state behind a symbol -/

namespace Item
variable {state first g i : Nat} {p q : Production}

/-- with one production of a phrase, all of them are at their left ends -/
theorem siblings (h : Item state first p 0) (part : p.lhs ≠ .file) (mem : (g, q) ∈ numbered)
    (same : q.lhs = p.lhs) : Item state g q 0 := by
  obtain ⟨k, hk, has⟩ := h
  refine ⟨k, hk, ?_⟩
  rcases closure_zero has with here | ⟨f, r, j, has', hj⟩
  · rcases entered hk with rfl | ⟨k₀, s, rfl⟩
    · exact absurd (has_startsOf here).2 part
    · exact absurd here not_has_advance_zero
  · exact closure_closed has' (same ▸ hj) mem

/-- the dot moves over a row of symbols -/
theorem exists_walk (h : Item state first p i) (front : List Symbol) {tail : List Symbol}
    (rhs : p.rhs.drop i = front ++ tail) :
    ∃ next, walk? state front = some next ∧ Item next first p (i + front.length) := by
  induction front generalizing state i with
  | nil => exact ⟨state, rfl, h⟩
  | cons s front ih =>
    have hi : p.rhs[i]? = some s := by
      rw [← List.head?_drop, rhs]
      rfl
    have rest : p.rhs.drop (i + 1) = front ++ tail := by
      rw [← List.tail_drop, rhs]
      rfl
    obtain ⟨middle, step⟩ := h.next hi
    obtain ⟨next, walk, item⟩ := ih (h.advance hi step) rest
    refine ⟨next, ?_, ?_⟩
    · rw [walk?, step]
      exact walk
    · rw [List.length_cons, Nat.add_comm front.length, ← Nat.add_assoc]
      exact item

end Item

/-- behind the first symbol of such a production there is one state -/
theorem next_of_alone {state state' next next' f f' : Nat} {p : Production} {s : Symbol} (alone : p.Alone)
    (part : p.lhs ≠ .file) (first : p.rhs[0]? = some s) (item : Item state f p 0) (item' : Item state' f' p 0)
    (h : next? state s = some next) (h' : next? state' s = some next') : next = next' := by
  obtain ⟨k, hk, _, rfl⟩ := next?_eq_some_iff.mp h
  obtain ⟨k', hk', _, rfl⟩ := next?_eq_some_iff.mp h'
  -- what reads the symbol in one state is at the left end of the phrase, so it is in the other state too
  have passes : ∀ {state state' f f' k k'}, Item state f p 0 → Item state' f' p 0 → kernels[state]? = some k →
      kernels[state']? = some k' → ∀ g q j, q.rhs[j]? = some s → Has (closure k) g q j →
        Has (closure k') g q j := by
    intro state state' f f' k k' item item' hk hk' g q j hj has
    have here : Item state g q j := ⟨k, hk, has⟩
    have inside := List.mem_range.mpr (List.getElem?_eq_some_iff.mp hj).1
    obtain ⟨rfl, lhs⟩ := alone (g, q) here.mem_numbered j inside (hj.trans first.symm) (item.beside here)
    obtain ⟨k'', hk'', has'⟩ := item'.siblings part here.mem_numbered lhs
    rw [hk'] at hk''
    cases hk''
    exact has'
  rw [advance_congr fun g q j hj => ⟨passes item item' hk hk' g q j hj, passes item' item hk' hk g q j hj⟩]

/-! ## What comes behind a phrase -/

/-- a terminal comes behind a phrase somewhere -/
def Comes (t : Terminal) (n : Nonterminal) : Prop := ∃ state, Continues state n t

namespace Comes
variable {t : Terminal} {n : Nonterminal} {p : Production}

/-- what the next symbol of a production may begin with -/
theorem of_next (h : Starts p) {i fuel : Nat} {s : Symbol} (hi : p.rhs[i]? = some (.nonterminal n))
    (hs : p.rhs[i + 1]? = some s) (starts : s.startsWithin t fuel = true) : Comes t n := by
  obtain ⟨state, first, item⟩ := h.exists_item (i := i) (Nat.le_of_lt (List.getElem?_eq_some_iff.mp hi).1)
  obtain ⟨next, step⟩ := item.next hi
  obtain ⟨after, reads⟩ := (item.advance hi step).reads hs starts
  exact ⟨state, .next step reads⟩

/-- what comes behind a phrase comes behind the phrase that it ends with -/
theorem last (h : Comes t p.lhs) (mem : p ∈ productions) (ends : p.rhs.getLast? = some (.nonterminal n)) :
    Comes t n := by
  obtain ⟨start, continues⟩ := h
  obtain ⟨front, rhs⟩ := List.getLast?_eq_some_iff.mp ends
  obtain ⟨first, item⟩ := item_of_place continues.place mem
  obtain ⟨state, walk, item⟩ := item.exists_walk front rhs
  have dot : p.rhs[0 + front.length]? = some (.nonterminal n) := by
    rw [rhs, Nat.zero_add, List.getElem?_concat_length]
  obtain ⟨behind, step⟩ := item.next dot
  exact ⟨state, .last mem rhs walk step continues⟩

/-- productions that each end with the phrase of the next one -/
theorem of_chain (p : Production) (ps : List Production) (h : Comes t p.lhs) (mem : ∀ q ∈ p :: ps, q ∈ productions)
    (chain : (p :: ps).IsChain fun p q => p.rhs.getLast? = some (.nonterminal q.lhs)) :
    ∀ q ∈ p :: ps, Comes t q.lhs := by
  induction ps generalizing p with
  | nil => exact List.forall_mem_singleton.mpr h
  | cons q ps ih =>
    obtain ⟨here, mem⟩ := List.forall_mem_cons.mp mem
    obtain ⟨ends, chain⟩ := List.isChain_cons_cons.mp chain
    exact List.forall_mem_cons.mpr ⟨h, ih q (h.last here ends) mem chain⟩

/-- it has an action behind the only symbol of a production of the phrase -/
theorem acts (h : Comes t p.lhs) {before state first : Nat} {s : Symbol} (alone : p.Alone) (part : p.lhs ≠ .file)
    (rhs : p.rhs = [s]) (item : Item before first p 0) (step : next? before s = some state) :
    action state t ≠ none := by
  have hs : p.rhs[0]? = some s := by rw [rhs, List.getElem?_cons_zero]
  obtain ⟨start, continues⟩ := h
  obtain ⟨f, item'⟩ := item_of_place continues.place item.mem_productions
  obtain ⟨next, step'⟩ := item'.next hs
  obtain rfl := next_of_alone alone part hs item item' step step'
  have walk : walk? start p.rhs = some state := by
    rw [rhs, walk?, step']
    rfl
  exact acts_of_continues item.mem_productions walk continues

end Comes

end Automaton

/-! ## Keywords behind a type -/

namespace Terminal

/-- the keywords that the declarations in a module begin with -/
def declarationWords : List Terminal :=
  [DECLARE, EXPORT, IMPORT, INTERFACE, CLASS, CONST, ENUM, FUNCTION, LET, MODULE, NAMESPACE, VAR]

/-- the keywords that the members of a class begin with -/
def classWords : List Terminal := [CONSTRUCTOR, PUBLIC, PRIVATE, PROTECTED, STATIC]

/-- the keywords that come behind a word for a predefined type, `new` apart -/
def behindPredefined : List Terminal := declarationWords ++ classWords

/-- the keywords that come behind a name of a type, `new` apart -/
def behindReference : List Terminal := IMPLEMENTS :: (declarationWords ++ classWords)

end Terminal

namespace Automaton

/-- a production for each phrase around a declaration in a module -/
def aroundDeclarations : List Production := [
  ⟨fileElements, [.nonterminal element]⟩, ⟨element, [.nonterminal ambientElement]⟩,
  ⟨ambientElement, [DECLARE, ambientBody]⟩, ⟨ambientBody, [.nonterminal ambientModule]⟩,
  ⟨ambientModule, [.terminal MODULE, moduleName, LBRACE, moduleElements, RBRACE]⟩,
  ⟨moduleElements, [moduleElements, moduleElement]⟩]

/-- a class with the type that it extends -/
def extendingClass : Production := ⟨ambientClass, [CLASS, NAME, classExtends, classImplements, LBRACE, RBRACE]⟩

/-- what the declarations in a module can end with -/
def endsOfDeclarations : List Production := [
  ⟨moduleElements, [moduleElements, moduleElement]⟩, ⟨moduleElement, [.nonterminal moduleAmbientElement]⟩,
  ⟨moduleAmbientElement, [.nonterminal ambientBody]⟩, ⟨ambientBody, [.nonterminal ambientVar]⟩,
  ⟨ambientVar, [VAR, NAME, ascription]⟩]

/-- what the members of a class can end with -/
def endsOfMembers : List Production := [
  ⟨classMembers, [classMembers, classMember]⟩, ⟨classMember, [.nonterminal memberVariable]⟩,
  ⟨memberVariable, [propertyName, ascription]⟩]

/-- what a type can end with -/
def endsOfTypes : List Production := [
  ⟨ascription, [COLON, typeExpr]⟩, ⟨typeExpr, [.nonterminal primaryType]⟩,
  ⟨primaryType, [.nonterminal typeReference]⟩, ⟨typeReference, [.nonterminal entityName]⟩]

theorem following_checked :
    ((∀ p ∈ aroundDeclarations ++ endsOfDeclarations ++ endsOfMembers ++ endsOfTypes, p ∈ productions) ∧
      extendingClass ∈ productions ∧ ⟨classExtends, [EXTENDS, typeReference]⟩ ∈ productions ∧
      ⟨primaryType, [.nonterminal predefinedType]⟩ ∈ productions) ∧
    (∀ t ∈ declarationWords, (Symbol.nonterminal moduleElement).startsWithin t 5 = true) ∧
    (∀ t ∈ classWords, (Symbol.nonterminal classMember).startsWithin t 3 = true) ∧
    (Symbol.nonterminal classImplements).startsWithin IMPLEMENTS 1 = true := by
  decide +kernel

/-- the declarations in a module, and classes with members, are in files -/
theorem starts_declarations : Starts ⟨moduleElements, [moduleElements, moduleElement]⟩ ∧
    Starts ⟨classMembers, [classMembers, classMember]⟩ ∧ Starts extendingClass := by
  obtain ⟨mem, isClass, -⟩ := following_checked.1
  obtain ⟨around, -, isFile, -⟩ := markedMembers_checked
  have mem : ∀ p ∈ aroundDeclarations, p ∈ productions := fun p h => mem p (by simp [h])
  have modules := (Starts.file rfl isFile).of_chain mem (by decide)
  have classes := (Starts.file rfl isFile).of_chain around (by decide)
  have members : ⟨classMembers, [classMembers, classMember]⟩ ∈ productions :=
    following_checked.1.1 _ (by decide)
  exact ⟨modules _ (by decide),
    (classes ⟨ambientClass, [CLASS, NAME, LBRACE, classMembers, RBRACE]⟩ (by decide)).forth members (by decide),
    (classes ⟨ambientBody, [.nonterminal ambientClass]⟩ (by decide)).forth isClass (by decide)⟩

/-- the keywords come behind the type of a variable or a field -/
theorem comes_behind_ascription : ∀ t ∈ declarationWords ++ classWords, Comes t ascription := by
  obtain ⟨modules, classes, -⟩ := starts_declarations
  obtain ⟨⟨mem, -⟩, declarations, members, -⟩ := following_checked
  refine List.forall_mem_append.mpr ⟨fun t word => ?_, fun t word => ?_⟩
  · have first : Comes t moduleElements := .of_next modules (i := 0) rfl rfl (declarations t word)
    have all := Comes.of_chain ⟨moduleElements, [moduleElements, moduleElement]⟩ endsOfDeclarations.tail first
      (fun q h => mem q (by revert q; decide)) (by decide)
    exact (all ⟨ambientVar, [VAR, NAME, ascription]⟩ (by decide)).last (mem _ (by decide)) rfl
  · have first : Comes t classMembers := .of_next classes (i := 0) rfl rfl (members t word)
    have all := Comes.of_chain ⟨classMembers, [classMembers, classMember]⟩ endsOfMembers.tail first
      (fun q h => mem q (by revert q; decide)) (by decide)
    exact (all ⟨memberVariable, [propertyName, ascription]⟩ (by decide)).last (mem _ (by decide)) rfl

/-- so they come behind all that a type can end with -/
theorem comes_behind_type : ∀ t ∈ declarationWords ++ classWords, Comes t entityName ∧ Comes t predefinedType := by
  intro t word
  have mem := following_checked.1.1
  have all := Comes.of_chain ⟨ascription, [COLON, typeExpr]⟩ endsOfTypes.tail (comes_behind_ascription t word)
    (fun q h => mem q (by revert q; decide)) (by decide)
  have reference := all ⟨typeReference, [.nonterminal entityName]⟩ (by decide)
  have primary := all ⟨primaryType, [.nonterminal typeReference]⟩ (by decide)
  exact ⟨reference.last (mem _ (by decide)) rfl,
    Comes.last (p := ⟨primaryType, [.nonterminal predefinedType]⟩) primary following_checked.1.2.2.2 rfl⟩

/-- the keywords that come behind the name of a type -/
theorem comes_behind_reference : ∀ t ∈ behindReference, Comes t entityName := by
  refine List.forall_mem_cons.mpr ⟨?_, fun t word => (comes_behind_type t word).1⟩
  obtain ⟨⟨mem, -, base, -⟩, -, -, begins⟩ := following_checked
  have first : Comes IMPLEMENTS classExtends :=
    .of_next starts_declarations.2.2 (i := 2) rfl rfl begins
  have reference : Comes IMPLEMENTS typeReference :=
    Comes.last (p := ⟨classExtends, [EXTENDS, typeReference]⟩) first base rfl
  exact Comes.last (p := ⟨typeReference, [.nonterminal entityName]⟩) reference (mem _ (by decide)) rfl

/-- the keywords that come behind a word for a predefined type -/
theorem comes_behind_predefined : ∀ t ∈ behindPredefined, Comes t predefinedType :=
  fun t word => (comes_behind_type t word).2

end Automaton

end Typings
