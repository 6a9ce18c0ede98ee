import Mathlib.Data.List.Induction
import Typings.Proofs.Declaration.Moving
import Typings.Proofs.Syntax.Naming
import Typings.Proofs.Syntax.Parting
import Typings.Proofs.Syntax.Sketching
/-!
# Putting derivations together

A printed text has its derivation put together from the parts that are printed.  All its tokens are at the
start; the places that they have in the text are found from the text.

* `Production.FitsAt`                     no other keywords come where a part may begin with a name;
* `Derivation.IsPart words s d`           `d` can stand where none but some keywords come;
* `Derivation.isPart_of_fits`              a phrase of parts is a part;
* `Derivation.series`                     parts with a separator between neighbours.
-/

namespace Typings

/-! ## Places of names -/

namespace Symbol

/-- a phrase can begin with a name -/
def mayBeName (s : Symbol) : Bool := (Lookahead.first s).contains .NAME

/-- none but some keywords come in front of a phrase, unless it does not begin with a name -/
def StandsAt (s : Symbol) (words : List Terminal) (dot : Option Dot) : Prop :=
  s.mayBeName = true → ∃ k ∈ dot, k.Admits words

end Symbol

namespace Production

/-- if what stands behind a symbol may begin with a name, the symbol is a token, and none but the opening
words come there -/
def FitsAt (p : Production) (i : Nat) : Prop :=
  ∀ s ∈ p.rhs[i + 1]?, s.mayBeName = true →
    (∀ t ∈ p.rhs[i]?, t.isTerminal = true) ∧ Dot.Admits ⟨p, i + 1⟩ s.openingWords

instance (p : Production) (i : Nat) : Decidable (p.FitsAt i) :=
  inferInstanceAs (Decidable (∀ s ∈ p.rhs[i + 1]?, _ → _))

def Fits (p : Production) : Prop := ∀ i ∈ List.range p.rhs.length, p.FitsAt i

instance (p : Production) : Decidable p.Fits := inferInstanceAs (Decidable (∀ i ∈ _, _))

/-- behind the last symbol nothing may begin with a name -/
theorem fitsAt_of_length_le {p : Production} {i : Nat} (outside : p.rhs.length ≤ i + 1) : p.FitsAt i := by
  intro s mem
  rw [List.getElem?_eq_none outside] at mem
  cases mem

theorem Fits.at {p : Production} (h : p.Fits) (i : Nat) : p.FitsAt i := by
  by_cases inside : i < p.rhs.length
  · exact h i (List.mem_range.mpr inside)
  · exact fitsAt_of_length_le (Nat.le_succ_of_le (Nat.le_of_not_lt inside))

end Production

section
open Terminal Nonterminal

/-- the phrases whose productions fit -/
def Nonterminal.fitting : List Nonterminal := [
  entityName, moreSegments, binding, namedBindings, moreBindings, exportAssignment, exportDefault,
  objectType, typeMember, propertySignature, methodSignature, constructSignature, indexSignature,
  callSignature, propertyName, parameterList, moreParameters, anyParameter, restParameter,
  typeParameters, typeParameter, moreTypeParameters, ascription, typeExpr, primaryType, predefinedType,
  typeReference, typeArguments, moreTypeArguments, typeQuery, arrayType, functionType, constructorType,
  interfaceDeclaration, interfaceElement]

/-- the dots in front of other names, and the keywords that come there -/
def Dot.others : List (Dot × List Terminal) := [
  (⟨⟨importAlias, [IMPORT, NAME, EQUAL, entityName]⟩, 1⟩, []),
  (⟨⟨importAlias, [IMPORT, NAME, EQUAL, entityName]⟩, 3⟩, [REQUIRE]),
  (⟨⟨externalImport, [IMPORT, NAME, EQUAL, REQUIRE, LPAR, STRING, RPAR]⟩, 1⟩, []),
  (⟨⟨ambientVar, [VAR, NAME, ascription]⟩, 1⟩, []),
  (⟨⟨accessibility, [PUBLIC]⟩, 1⟩, [STATIC, CONSTRUCTOR]),
  (⟨⟨accessibility, [PRIVATE]⟩, 1⟩, [STATIC, CONSTRUCTOR]),
  (⟨⟨accessibility, [PROTECTED]⟩, 1⟩, [STATIC, CONSTRUCTOR]),
  (⟨⟨memberSeparator, [SEMICOLON]⟩, 1⟩, [NEW])]

theorem Dot.checked : (∀ p ∈ productions, p.lhs ∈ fitting → p.Fits) ∧
    ∀ found ∈ Dot.others, found.1.Admits found.2 := by
  decide +kernel

end

/-- a token as it is printed: at the start, and of another class than string literals and equals signs -/
structure Token.Printed (t : Token) : Prop where
  start : t.start = .start
  kind : t.kind ≠ .STRING ∧ t.kind ≠ .EQUAL

namespace Derivation

/-! ## Phrases -/

theorem tokensOf_singleton (d : Derivation) : tokensOf [d] = d.tokens := List.append_nil _

theorem treesOf_append (ds es : List Derivation) : treesOf (ds ++ es) = treesOf ds ++ treesOf es := by
  simp only [treesOf_eq_flatMap, List.flatMap_append]

theorem trees_sign {t : Terminal} (dropped : t.isKept = false) : (sign t).trees = [] :=
  if_neg (by rw [dropped]; exact Bool.false_ne_true)

theorem trees_spliced {n : Nonterminal} (spliced : n.shape = .spliced) (parts : List Derivation) :
    (phrase n parts).trees = treesOf parts := by
  rw [phrase, trees]
  unfold shown
  rw [spliced]

theorem allParted_of_forall {ds : List Derivation} (h : ∀ d ∈ ds, ∀ ahead, d.Parted ahead) (ahead : Terminal) :
    AllParted ds ahead := by
  induction ds with
  | nil => exact .nil ahead
  | cons d ds ih =>
    obtain ⟨here, further⟩ := List.forall_mem_cons.mp h
    exact .cons (here _) (ih further)

/-! ## Parts -/

/-- what can stand in a phrase: nothing is left out of it, and where none but some keywords come in front of
it, no name in it is a keyword -/
structure IsPart (words : List Terminal) (s : Symbol) (d : Derivation) : Prop where
  root : d.root = s
  part : s ≠ .nonterminal .file
  valid : d.Valid
  parted : ∀ ahead, d.Parted ahead
  unworded : ∀ dot, s.StandsAt words dot → d.Unworded dot
  printed : ∀ t ∈ d.tokens, t.Printed

theorem isPart_sign {t : Terminal} (other : t ≠ .NAME ∧ t ≠ .STRING ∧ t ≠ .EQUAL) (words : List Terminal) :
    IsPart words t (sign t) where
  root := rfl
  part := nofun
  valid := .leaf _
  parted := .leaf _
  unworded _ _ isName := absurd isName other.1
  printed := List.forall_mem_singleton.mpr ⟨rfl, other.2⟩

/-- a name that is none of the keywords in front of it -/
theorem isPart_name {words : List Terminal} {name : Text} (free : ∀ u ∈ words, u.isWord name = false) :
    IsPart words Terminal.NAME (word .NAME name) where
  root := rfl
  part := nofun
  valid := .leaf _
  parted := .leaf _
  unworded dot stands _ := by
    obtain ⟨k, mem, admits⟩ := stands (by with_unfolding_all decide)
    exact ⟨k, mem, admits.not_isWord free⟩
  printed := List.forall_mem_singleton.mpr ⟨rfl, nofun, nofun⟩

namespace IsPart
variable {words more : List Terminal} {s : Symbol} {d : Derivation} {n : Nonterminal} {parts : List Derivation}

/-- fewer keywords in front -/
theorem mono (h : IsPart words s d) (sub : ∀ u ∈ more, u ∈ words) : IsPart more s d :=
  { h with unworded := fun dot stands => h.unworded dot fun begins =>
      let ⟨k, mem, admits⟩ := stands begins
      ⟨k, mem, admits.mono sub⟩ }

/-- what does not begin with a name stands behind any keywords -/
theorem of_not_name (h : IsPart words s d) (other : s.mayBeName = false) (more : List Terminal) :
    IsPart more s d :=
  { h with unworded := fun dot _ => h.unworded dot fun begins =>
      absurd (begins.symm.trans other) (by decide) }

/-- it begins at the start -/
theorem loc (h : IsPart words s d) : d.loc = Cursor.start.loc := by
  obtain ⟨t, ts, e⟩ := List.exists_cons_of_ne_nil (tokens_ne_nil h.valid (h.root ▸ h.part))
  have start := (h.printed t (e ▸ List.mem_cons_self)).start
  rw [Derivation.loc, start?_eq, e]
  exact congrArg Cursor.loc start

/-- what a phrase shows as -/
theorem trees (h : IsPart words n (phrase n parts)) :
    (phrase n parts).trees = shown n Cursor.start.loc (treesOf parts) := by
  rw [← h.loc, phrase, Derivation.trees]

end IsPart

/-- parts of a production that stand where they may -/
theorem unwordedAll_of_fits {p : Production} {i : Nat} {ds : List Derivation}
    (rhs : p.rhs.drop i = ds.map root) (fits : ∀ j ≥ i, p.FitsAt j)
    (parts : ∀ d ∈ ds.tail, IsPart d.root.openingWords d.root d) {dot : Option Dot}
    (first : ∀ d ∈ ds.head?, d.Unworded dot) : UnwordedAll dot p i ds := by
  induction ds generalizing i dot with
  | nil => trivial
  | cons d rest ih =>
    obtain ⟨hi, rhs⟩ := drop_cons rhs
    refine ⟨first d rfl, ih rhs (fun j le => fits j (Nat.le_of_succ_le le)) (fun e he =>
      parts e (List.mem_of_mem_tail he)) fun e he => ?_⟩
    have next : p.rhs[i + 1]? = some e.root := by
      rw [← List.head?_drop, rhs, List.head?_map, Option.mem_def.mp he, Option.map_some]
    refine (parts e (List.mem_of_mem_head? he)).unworded _ fun begins => ?_
    obtain ⟨isTerminal, admits⟩ := fits i (Nat.le_refl _) e.root (Option.mem_def.mpr next) begins
    cases d with
    | leaf => exact ⟨_, rfl, admits⟩
    | node => exact absurd (isTerminal _ hi) Bool.false_ne_true

section
variable {words : List Terminal} {n : Nonterminal} {parts : List Derivation}

/-- what begins a phrase may begin with a name only if the phrase may -/
theorem mayBeName_of_head {rhs : List Symbol} (mem : ⟨n, rhs⟩ ∈ productions) {s : Symbol}
    (head : rhs.head? = some s) (begins : s.mayBeName = true) : (Symbol.nonterminal n).mayBeName = true :=
  Lookahead.first_of_head mem head begins

theorem head_of_mem {d : Derivation} (h : d ∈ parts.head?) : (parts.map root).head? = some d.root := by
  rw [List.head?_map, Option.mem_def.mp h, Option.map_some]

/-- a phrase of parts is a part, if no name in it is a keyword -/
theorem isPart_of_unworded (part : n ≠ .file) (kept : ⟨n, parts.map root⟩ ∈ separated)
    (isParts : ∀ d ∈ parts, ∃ words s, IsPart words s d)
    (unworded : ∀ dot, (Symbol.nonterminal n).StandsAt words dot → UnwordedAll dot ⟨n, parts.map root⟩ 0 parts) :
    IsPart words n (phrase n parts) where
  root := rfl
  part e := part (Symbol.nonterminal.inj e)
  valid := .node (mem_productions_of_separated kept) rfl ((allValid_iff _).mpr fun d hd =>
    let ⟨_, _, isPart⟩ := isParts d hd
    isPart.valid)
  parted ahead := .node (.inl kept) (allParted_of_forall (fun d hd =>
    let ⟨_, _, isPart⟩ := isParts d hd
    isPart.parted) ahead)
  unworded := unworded
  printed t mem := by
    rw [tokens_phrase, tokensOf_eq_flatMap] at mem
    obtain ⟨d, hd, mem⟩ := List.mem_flatMap.mp mem
    obtain ⟨_, _, isPart⟩ := isParts d hd
    exact isPart.printed t mem

/-- a phrase of parts is a part, where its production fits and its first part is one -/
theorem isPart_of_fits (part : n ≠ .file) (kept : ⟨n, parts.map root⟩ ∈ separated)
    (all : Production.Fits ⟨n, parts.map root⟩) (isParts : ∀ d ∈ parts, IsPart d.root.openingWords d.root d)
    (first : ∀ d ∈ parts.head?, IsPart words d.root d) : IsPart words n (phrase n parts) := by
  refine isPart_of_unworded part kept (fun d hd => ⟨_, _, isParts d hd⟩) fun dot stands => ?_
  refine unwordedAll_of_fits List.drop_zero (fun j _ => all.at j)
    (fun d hd => isParts d (List.mem_of_mem_tail hd)) fun d hd => ?_
  exact (first d hd).unworded dot fun begins =>
    stands (mayBeName_of_head (mem_productions_of_separated kept) (head_of_mem hd) begins)

/-- the same for the phrases whose productions fit -/
theorem isPart_phrase (kept : ⟨n, parts.map root⟩ ∈ separated) (fits : n ∈ Nonterminal.fitting)
    (isParts : ∀ d ∈ parts, IsPart d.root.openingWords d.root d)
    (first : ∀ d ∈ parts.head?, IsPart words d.root d) : IsPart words n (phrase n parts) :=
  isPart_of_fits (fun e => absurd fits (by rw [e]; decide)) kept
    (Dot.checked.1 _ (mem_productions_of_separated kept) fits) isParts first

/-- the same for a phrase that does not begin with a name -/
theorem isPart_marked (kept : ⟨n, parts.map root⟩ ∈ separated) (fits : n ∈ Nonterminal.fitting)
    (other : (Symbol.nonterminal n).mayBeName = false)
    (isParts : ∀ d ∈ parts, IsPart d.root.openingWords d.root d) : IsPart words n (phrase n parts) := by
  refine isPart_phrase kept fits isParts fun d hd => (isParts d (List.mem_of_mem_head? hd)).of_not_name ?_ words
  rw [Bool.eq_false_iff]
  intro begins
  have begins' := mayBeName_of_head (mem_productions_of_separated kept) (head_of_mem hd) begins
  exact Bool.false_ne_true (other.symm.trans begins')

end

/-! ## Repetitions -/

/-- a repetition of parts with a separator in front of each -/
def repeated (n : Nonterminal) (mark : Terminal) (first : Derivation) (rest : List Derivation) : Derivation :=
  rest.foldl (fun front d => phrase n [front, sign mark, d]) (phrase n [sign mark, first])

/-- parts with a separator between neighbours, those behind the first one as a repetition -/
def series (n : Nonterminal) (mark : Terminal) : List Derivation → List Derivation
  | [] => []
  | [d] => [d]
  | d :: e :: rest => [d, repeated n mark e rest]

/-- a separator and a repetition for parts of a kind -/
structure Separates (n : Nonterminal) (mark : Terminal) (part : Symbol) : Prop where
  one : ⟨n, [.terminal mark, part]⟩ ∈ separated
  more : ⟨n, [.nonterminal n, .terminal mark, part]⟩ ∈ separated
  fits : n ∈ Nonterminal.fitting
  marked : (Symbol.nonterminal n).mayBeName = false
  spliced : n.shape = .spliced
  other : mark ≠ .NAME ∧ mark ≠ .STRING ∧ mark ≠ .EQUAL
  dropped : mark.isKept = false

section
open Terminal Nonterminal

/-- repetitions with a separator, and what they are made of -/
def repetitions : List (Nonterminal × Terminal × Symbol) := [
  (moreSegments, DOT, NAME), (moreBindings, COMMA, Nonterminal.binding), (moreParameters, COMMA, anyParameter),
  (moreTypeParameters, COMMA, typeParameter), (moreTypeArguments, COMMA, typeExpr)]

theorem repetitions_checked : ∀ r ∈ repetitions,
    ⟨r.1, [.terminal r.2.1, r.2.2]⟩ ∈ separated ∧
    ⟨r.1, [.nonterminal r.1, .terminal r.2.1, r.2.2]⟩ ∈ separated ∧ r.1 ∈ fitting ∧
    (Symbol.nonterminal r.1).mayBeName = false ∧ r.1.shape = .spliced ∧
    (r.2.1 ≠ NAME ∧ r.2.1 ≠ STRING ∧ r.2.1 ≠ EQUAL) ∧ r.2.1.isKept = false := by
  decide +kernel

end

theorem Separates.of_mem {n : Nonterminal} {mark : Terminal} {part : Symbol}
    (h : (n, mark, part) ∈ repetitions) : Separates n mark part := by
  obtain ⟨one, more, fits, marked, spliced, other, dropped⟩ := repetitions_checked _ h
  exact { one, more, fits, marked, spliced, other, dropped }

section
variable {n : Nonterminal} {mark : Terminal} {part : Symbol}

/-- what holds of a repetition of one part, and stays when a part is added -/
theorem repeated_induction {P : List Derivation → Derivation → Prop} (first : Derivation)
    (one : P [first] (phrase n [sign mark, first]))
    (more : ∀ ds front d, front.root = .nonterminal n → P ds front →
      P (ds ++ [d]) (phrase n [front, sign mark, d]))
    (rest : List Derivation) : P (first :: rest) (repeated n mark first rest) := by
  suffices (repeated n mark first rest).root = .nonterminal n ∧
      P (first :: rest) (repeated n mark first rest) from this.2
  induction rest using List.reverseRecOn with
  | nil => exact ⟨rfl, one⟩
  | append_singleton rest d ih =>
    rw [repeated, List.foldl_append]
    exact ⟨rfl, more (first :: rest) _ d ih.1 ih.2⟩

theorem tokens_repeated (first : Derivation) (rest : List Derivation) :
    (repeated n mark first rest).tokens =
      (first :: rest).flatMap fun d => (sign mark).tokens ++ d.tokens := by
  refine repeated_induction (P := fun ds d => d.tokens = ds.flatMap fun d => (sign mark).tokens ++ d.tokens)
    first ?_ (fun ds front d _ ih => ?_) rest
  · simp [tokensOf_eq_flatMap]
  · simp [tokensOf_eq_flatMap, ih]

theorem tokens_series (d : Derivation) (rest : List Derivation) :
    tokensOf (series n mark (d :: rest)) =
      d.tokens ++ rest.flatMap fun d => (sign mark).tokens ++ d.tokens := by
  cases rest with
  | nil => rw [series, tokensOf_eq_flatMap, List.flatMap_singleton, List.flatMap_nil, List.append_nil]
  | cons e rest => rw [series, tokensOf, tokensOf, tokensOf, List.append_nil, tokens_repeated]

variable (sep : Separates n mark part)
include sep

theorem trees_repeated (first : Derivation) (rest : List Derivation) :
    (repeated n mark first rest).trees = (first :: rest).flatMap trees := by
  refine repeated_induction (P := fun ds d => d.trees = ds.flatMap trees) first ?_
    (fun ds front d _ ih => ?_) rest
  · rw [trees_spliced sep.spliced, treesOf_eq_flatMap, List.flatMap_cons, trees_sign sep.dropped, List.nil_append]
  · rw [trees_spliced sep.spliced, treesOf_eq_flatMap, List.flatMap_cons, List.flatMap_cons,
      trees_sign sep.dropped, List.nil_append, ih, List.flatMap_append]

/-- a repetition of parts is a part -/
theorem isPart_repeated {first : Derivation} {rest : List Derivation}
    (parts : ∀ d ∈ first :: rest, IsPart part.openingWords part d) (words : List Terminal) :
    IsPart words n (repeated n mark first rest) := by
  have isMark := isPart_sign sep.other (Symbol.terminal mark).openingWords
  refine repeated_induction (P := fun ds d => (∀ e ∈ ds, IsPart part.openingWords part e) → IsPart words n d)
    first (fun parts => ?_) (fun ds front d isFront ih parts => ?_) rest parts
  · have isPart := parts first List.mem_cons_self
    have kept : ⟨n, [sign mark, first].map root⟩ ∈ separated := by
      rw [List.map_cons, List.map_singleton, isPart.root]
      exact sep.one
    exact isPart_marked kept sep.fits sep.marked (List.forall_mem_cons.mpr ⟨isMark,
      List.forall_mem_singleton.mpr (isPart.root.symm ▸ isPart)⟩)
  · have before := ih fun e he => parts e (List.mem_append_left _ he)
    have isPart := parts d (List.mem_append_right _ List.mem_cons_self)
    have kept : ⟨n, [front, sign mark, d].map root⟩ ∈ separated := by
      rw [List.map_cons, List.map_cons, List.map_singleton, isPart.root, isFront]
      exact sep.more
    exact isPart_marked kept sep.fits sep.marked (List.forall_mem_cons.mpr
      ⟨isFront.symm ▸ before.of_not_name sep.marked _, List.forall_mem_cons.mpr ⟨isMark,
        List.forall_mem_singleton.mpr (isPart.root.symm ▸ isPart)⟩⟩)

/-! ## Series -/

theorem trees_series : ∀ ds : List Derivation, treesOf (series n mark ds) = ds.flatMap trees
  | [] => rfl
  | [d] => by rw [series, treesOf_eq_flatMap]
  | d :: e :: rest => by
    rw [series, treesOf, treesOf, treesOf, List.append_nil, trees_repeated sep]
    rfl

/-- what a series is made of -/
theorem isPart_series {ds : List Derivation} (parts : ∀ d ∈ ds, IsPart part.openingWords part d) :
    ∀ d ∈ series n mark ds, IsPart d.root.openingWords d.root d := by
  have here : ∀ d ∈ ds, IsPart d.root.openingWords d.root d := fun d hd =>
    (parts d hd).root.symm ▸ parts d hd
  match ds with
  | [] => exact fun _ h => absurd h List.not_mem_nil
  | [d] => exact here
  | d :: e :: rest =>
    have further := isPart_repeated sep (fun d hd => parts d (List.mem_cons_of_mem _ hd))
      (Symbol.nonterminal n).openingWords
    exact List.forall_mem_cons.mpr ⟨here d List.mem_cons_self, List.forall_mem_singleton.mpr
      (further.root.symm ▸ further)⟩

/-- the roots of a series: one part, or one and a repetition -/
theorem roots_series {d : Derivation} {rest : List Derivation}
    (parts : ∀ e ∈ d :: rest, IsPart part.openingWords part e) :
    (series n mark (d :: rest)).map root ∈ [[part], [part, .nonterminal n]] := by
  cases rest with
  | nil =>
    rw [series, List.map_singleton, (parts d List.mem_cons_self).root]
    exact List.mem_cons_self
  | cons e rest =>
    have further := isPart_repeated sep (fun d hd => parts d (List.mem_cons_of_mem _ hd)) []
    rw [series, List.map_cons, List.map_singleton, (parts d List.mem_cons_self).root, further.root]
    exact List.mem_cons_of_mem _ List.mem_cons_self

end

end Derivation

end Typings
