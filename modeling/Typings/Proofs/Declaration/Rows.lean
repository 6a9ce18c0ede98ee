import Typings.Proofs.Declaration.Phrases
/-!
# Parts of rows

What a builder looks for in a row is not in the parts of the row that stand before it.

* `Tree.child?_append`, `TypeExpr.ascriptionIn_append`, …   parts of a row that are passed over;
* `Row.once_inv`, `Row.optional_inv`      the first part of a row;
* `Shows.word`, `Shows.string`, `Perhaps.child?_ne`, …      what a part is;
* `Row.passes_more`, `passes_repeated`        repetitions.
-/

namespace Typings

/-! ## Parts that are passed over -/

namespace Tree

theorem child?_append (n : Nonterminal) (a b : List Tree) :
    child? n (a ++ b) = (child? n a).or (child? n b) := by
  induction a with
  | nil => rfl
  | cons t a ih =>
    cases t with
    | leaf kind text loc => exact ih
    | node label loc cs =>
      rw [List.cons_append, child?, child?]
      by_cases h : label = .phrase n
      · rw [if_pos h, if_pos h]
        rfl
      · rw [if_neg h, if_neg h, ih]

theorem token?_append (k : Terminal) (a b : List Tree) :
    token? k (a ++ b) = (token? k a).or (token? k b) := by
  induction a with
  | nil => rfl
  | cons t a ih =>
    cases t with
    | node label loc cs => exact ih
    | leaf kind text loc =>
      rw [List.cons_append, token?, token?]
      by_cases h : kind = some k
      · rw [if_pos h, if_pos h]
        rfl
      · rw [if_neg h, if_neg h, ih]

/-- nothing in a row can be the name of a member -/
def Nameless (ts : List Tree) : Prop :=
  token? .NAME ts = none ∧ token? .STRING ts = none ∧ token? .NUMERAL ts = none

theorem propertyName_append {a : List Tree} (h : Nameless a) (label : Label) (loc : Loc)
    (b : List Tree) : propertyName label loc (a ++ b) = propertyName label loc b := by
  induction a with
  | nil => rfl
  | cons t a ih =>
    obtain ⟨name, string, numeral⟩ := h
    cases t with
    | node label' loc' cs => exact ih ⟨name, string, numeral⟩
    | leaf kind text loc' =>
      have different : ∀ k, token? k (.leaf kind text loc' :: a) = none →
          kind ≠ some k ∧ token? k a = none := by
        intro k h
        rw [token?] at h
        by_cases e : kind = some k
        · rw [if_pos e] at h
          cases h
        · rw [if_neg e] at h
          exact ⟨e, h⟩
      obtain ⟨ne, name⟩ := different _ name
      obtain ⟨ne', string⟩ := different _ string
      obtain ⟨ne'', numeral⟩ := different _ numeral
      rw [List.cons_append, propertyName, if_neg]
      · exact ih ⟨name, string, numeral⟩
      · rintro (e | e | e)
        · exact ne e
        · exact ne' e
        · exact ne'' e

/-- a row of names, put together with dots -/
theorem dotted_names (names : List Text) (loc : Loc) :
    dotted (names.map fun n => .leaf (some .NAME) n loc) = Text.join "." names := by
  have all : Tree.names (names.map fun n => Tree.leaf (some .NAME) n loc) = names := by
    induction names with
    | nil => rfl
    | cons n names ih => rw [List.map_cons, Tree.names, if_pos rfl, ih]
  rw [dotted, all]

/-- the dotted name in front of a row -/
theorem entity_names (label : Label) (loc at' place : Loc) (names : List Text) (rest : List Tree) :
    entity label loc (.node (.phrase .entityName) at' (names.map fun n => .leaf (some .NAME) n place) :: rest) =
      .ok (Text.join "." names) := by
  rw [entity, child, child?, if_pos rfl, ← dotted_names names place]
  rfl

/-- the first node is not one of the phrase, and there is none behind it -/
theorem child?_cons_none {n : Nonterminal} {label : Label} {loc : Loc} {cs a : List Tree}
    (h : child? n (.node label loc cs :: a) = none) : label ≠ .phrase n ∧ child? n a = none := by
  rw [child?] at h
  by_cases e : label = .phrase n
  · rw [if_pos e] at h
    cases h
  · rw [if_neg e] at h
    exact ⟨e, h⟩

end Tree

open Typings.Tree

theorem TypeExpr.ascriptionIn_append {a : List Tree} (h : child? .ascription a = none)
    (b : List Tree) : ascriptionIn (a ++ b) = ascriptionIn b := by
  induction a with
  | nil => rfl
  | cons t a ih =>
    cases t with
    | leaf kind text loc =>
      rw [List.cons_append, ascriptionIn]
      exact ih h
    | node label loc cs =>
      obtain ⟨ne, h⟩ := child?_cons_none h
      rw [List.cons_append, ascriptionIn, if_neg ne, ih h]

theorem Signature.callIn_append {a : List Tree} (h : child? .callSignature a = none)
    (label : Label) (loc : Loc) (b : List Tree) : callIn label loc (a ++ b) = callIn label loc b := by
  induction a with
  | nil => rfl
  | cons t a ih =>
    cases t with
    | leaf kind text loc =>
      rw [List.cons_append, callIn]
      exact ih h
    | node label loc cs =>
      obtain ⟨ne, h⟩ := child?_cons_none h
      rw [List.cons_append, callIn, if_neg ne, ih h]

/-! ## Parts of a row -/

namespace Row
variable {s : Symbol} {slots : List Slot} {ts : List Tree} {ls : List Token} {back : Bool}

theorem once_inv (h : Row false (.once s :: slots) ts ls) :
    ∃ t t' l l', ts = t ++ t' ∧ ls = l ++ l' ∧ Shows s t l ∧ Row false slots t' l' := by
  cases h with
  | once here further => exact ⟨_, _, _, _, rfl, rfl, here, further⟩

theorem optional_inv (h : Row false (.optional s :: slots) ts ls) :
    ∃ t t' l l', ts = t ++ t' ∧ ls = l ++ l' ∧ Perhaps (Shows s) t l ∧ Row false slots t' l' := by
  cases h with
  | optional here further => exact ⟨_, _, _, _, rfl, rfl, here, further⟩

theorem nil_inv (h : Row back [] ts ls) : ts = [] ∧ ls = [] := by
  cases h
  exact ⟨rfl, rfl⟩

theorem inOrder_nil_right (back : Bool) (ls : List Token) : inOrder back ls [] = ls := by
  cases back with
  | false => exact List.append_nil ls
  | true => rfl

theorem last_inv (h : Row back [.once s] ts ls) : Shows s ts ls := by
  cases h with
  | once here further =>
    obtain ⟨rfl, rfl⟩ := further.nil_inv
    rwa [List.append_nil, inOrder_nil_right]

theorem lastOptional_inv (h : Row back [.optional s] ts ls) : Perhaps (Shows s) ts ls := by
  cases h with
  | optional here further =>
    obtain ⟨rfl, rfl⟩ := further.nil_inv
    rwa [List.append_nil, inOrder_nil_right]

end Row

section
variable {ts : List Tree} {ls : List Token}

/-- a phrase that only passes on a part shows as this part -/
theorem shown_singleton {n : Nonterminal} (passesOn : n.shape = .transparent) (loc : Loc)
    (t : Tree) : Derivation.shown n loc [t] = [t] := by
  unfold Derivation.shown
  rw [passesOn]

theorem Single.shown {n : Nonterminal} {loc : Loc} {Q : Label → Loc → List Tree → List Token → Prop}
    (h : Single Q ts ls) (passesOn : n.shape = .transparent) :
    Single Q (Derivation.shown n loc ts) ls := by
  obtain ⟨label, loc', cs, rfl, holds⟩ := h
  rw [shown_singleton passesOn]
  exact ⟨label, loc', cs, rfl, holds⟩

theorem PassesNode.shown {n : Nonterminal} {loc : Loc} {good : List Tree → List Token → Prop}
    (h : PassesNode good ts ls) (passesOn : n.shape = .transparent) :
    PassesNode good (Derivation.shown n loc ts) ls := by
  obtain ⟨⟨label, loc', cs, rfl⟩, passes⟩ := h
  rw [shown_singleton passesOn]
  exact ⟨⟨label, loc', cs, rfl⟩, passes⟩

theorem Shows.word {t : Terminal} (h : Shows (.terminal t) ts ls) (kept : t.isKept = true)
    (ne : t ≠ .STRING) : ls = [] ∧ ∃ text loc, ts = [.leaf (some t) text loc] := by
  obtain ⟨token, rfl, rfl, rfl⟩ := h
  rw [Derivation.literals, Derivation.trees, if_neg ne, if_pos kept]
  exact ⟨rfl, _, _, rfl⟩

theorem Shows.string (h : Shows (.terminal .STRING) ts ls) :
    ∃ token : Token, ts = [.leaf (some .STRING) token.text token.start.loc] ∧ ls = [token] := by
  obtain ⟨token, kind, rfl, rfl⟩ := h
  rw [Derivation.literals, Derivation.trees, kind]
  exact ⟨token, rfl, rfl⟩

/-- a mark that may be left out -/
theorem Perhaps.word {t : Terminal} (h : Perhaps (Shows (.terminal t)) ts ls)
    (kept : t.isKept = true) (ne : t ≠ .STRING) :
    ls = [] ∧ (ts = [] ∨ ∃ text loc, ts = [.leaf (some t) text loc]) := by
  rcases h with h | ⟨rfl, rfl⟩
  · obtain ⟨none, one⟩ := h.word kept ne
    exact ⟨none, .inr one⟩
  · exact ⟨rfl, .inl rfl⟩

/-- a phrase that may be left out is no other phrase -/
theorem Perhaps.child?_ne {n m : Nonterminal} {Q : Loc → List Tree → List Token → Prop}
    (h : Perhaps (Phrase n Q) ts ls) (ne : n ≠ m) : child? m ts = none := by
  rcases h with ⟨loc, cs, rfl, _⟩ | ⟨rfl, _⟩
  · rw [child?, if_neg (fun e => ne (Label.phrase.inj e))]
    rfl
  · rfl

theorem Perhaps.token?_phrase {n : Nonterminal} {Q : Loc → List Tree → List Token → Prop}
    (h : Perhaps (Phrase n Q) ts ls) (k : Terminal) : token? k ts = none := by
  rcases h with ⟨loc, cs, rfl, _⟩ | ⟨rfl, _⟩
  · rfl
  · rfl

theorem Shows.child?_word {t : Terminal} (h : Shows (.terminal t) ts ls) (n : Nonterminal) :
    child? n ts = none := by
  obtain ⟨token, _, rfl, _⟩ := h
  rw [Derivation.trees]
  by_cases kept : token.kind.isKept = true
  · rw [if_pos kept]
    rfl
  · rw [if_neg kept]
    rfl

theorem Perhaps.child?_word {t : Terminal} (h : Perhaps (Shows (.terminal t)) ts ls)
    (n : Nonterminal) : child? n ts = none := by
  rcases h with h | ⟨rfl, _⟩
  · exact h.child?_word n
  · rfl

theorem Perhaps.token?_ne {t k : Terminal} (h : Perhaps (Shows (.terminal t)) ts ls) (ne : t ≠ k) :
    token? k ts = none := by
  rcases h with ⟨token, rfl, rfl, _⟩ | ⟨rfl, _⟩
  · rw [Derivation.trees]
    by_cases kept : token.kind.isKept = true
    · rw [if_pos kept, token?, if_neg (fun e => ne (Option.some.inj e))]
      rfl
    · rw [if_neg kept]
      rfl
  · rfl

/-- a name behind a part without names -/
theorem Shows.name {a : List Tree} (h : Shows (.terminal .NAME) ts ls)
    (none : token? .NAME a = none) (label : Label) (loc : Loc) (rest : List Tree) :
    ls = [] ∧ ∃ name, Tree.token label loc .NAME (a ++ (ts ++ rest)) = .ok name := by
  obtain ⟨noLiterals, name, loc', rfl⟩ := h.word rfl (by decide)
  refine ⟨noLiterals, name, ?_⟩
  rw [Tree.token, token?_append, none]
  rfl

theorem Perhaps.passes {good : List Tree → List Token → Prop} (h : Perhaps (Passes good) ts ls) :
    Passes good ts ls := by
  rcases h with h | ⟨rfl, rfl⟩
  · exact h
  · exact .nil

/-- a phrase and more of the same -/
theorem Row.passes_more {good : List Tree → List Token → Prop} {n m : Nonterminal}
    (h : Row false [.once (.nonterminal n), .optional (.nonterminal m)] ts ls)
    (one : ∀ ts ls, Means n ts ls → Passes good ts ls) (more : Means m = Passes good) :
    Passes good ts ls := by
  obtain ⟨t, t', l, l', rfl, rfl, here, h⟩ := h.once_inv
  have there := h.lastOptional_inv
  rw [Shows, more] at there
  exact (one _ _ here).append there.passes

/-- a repetition, which grows on the left -/
theorem passes_repeated {good : List Tree → List Token → Prop} {n m : Nonterminal}
    (h : Row false [.once (.nonterminal n)] ts ls ∨
      Row false [.once (.nonterminal m), .once (.nonterminal n)] ts ls)
    (one : ∀ ts ls, Means n ts ls → Passes good ts ls) (more : Means m = Passes good) :
    Passes good ts ls := by
  rcases h with h | h
  · exact one _ _ h.last_inv
  · obtain ⟨t, t', l, l', rfl, rfl, here, h⟩ := h.once_inv
    rw [Shows, more] at here
    exact here.append (one _ _ h.last_inv)

end

end Typings
