import Typings.Proofs.Syntax.Parting
/-!
# Derivations with other tokens

Whether a derivation is valid and separated depends on the classes of its tokens only.  So its tokens
may be moved to other places, or taken from another text with the same lexemes.

* `Derivation.map f`                   the derivation with each token changed;
* `Token.unplaced`                     a token without its place;
* `Derivation.exists_of_tokens`        a derivation over a row of tokens that differs in places only.
-/

namespace Typings

/-- a token without its place -/
def Token.unplaced (t : Token) : Token := { t with start := .start }

theorem Token.kind_unplaced (t : Token) : t.unplaced.kind = t.kind := rfl

/-- what holds of the classes and the texts of tokens holds in any places -/
theorem Token.forall_of_unplaced {P : Terminal → Text → Prop} {ts us : List Token}
    (same : us.map unplaced = ts.map unplaced) (h : ∀ t ∈ ts, P t.kind t.text) : ∀ u ∈ us, P u.kind u.text := by
  rintro ⟨kind, text, start⟩ mem
  have mem' := List.mem_map_of_mem (f := unplaced) mem
  rw [same] at mem'
  obtain ⟨t, ht, alike⟩ := List.mem_map.mp mem'
  have here := h t ht
  obtain ⟨_, _, _⟩ := t
  cases alike
  exact here

namespace Derivation

mutual

/-- a derivation with each token changed -/
def map (f : Token → Token) : Derivation → Derivation
  | leaf token => leaf (f token)
  | node p parts => node p (mapAll f parts)

def mapAll (f : Token → Token) : List Derivation → List Derivation
  | [] => []
  | d :: rest => map f d :: mapAll f rest

end

theorem mapAll_eq_map (f : Token → Token) (ds : List Derivation) : mapAll f ds = ds.map (map f) := by
  induction ds with
  | nil => rfl
  | cons d ds ih => rw [mapAll, ih, List.map_cons]

mutual

theorem tokens_map (f : Token → Token) : ∀ d : Derivation, (d.map f).tokens = d.tokens.map f
  | leaf _ => rfl
  | node _ parts => tokensOf_mapAll f parts

theorem tokensOf_mapAll (f : Token → Token) : ∀ ds, tokensOf (mapAll f ds) = (tokensOf ds).map f
  | [] => rfl
  | d :: rest => by
    rw [mapAll, tokensOf, tokensOf, tokens_map f d, tokensOf_mapAll f rest, List.map_append]

end

mutual

/-- a derivation whose tokens do not change does not change -/
theorem map_eq_self {f : Token → Token} : ∀ d : Derivation, (∀ t ∈ d.tokens, f t = t) → d.map f = d
  | leaf token, h => congrArg leaf (h token List.mem_cons_self)
  | node p parts, h => congrArg (node p) (mapAll_eq_self parts h)

theorem mapAll_eq_self {f : Token → Token} : ∀ ds : List Derivation, (∀ t ∈ tokensOf ds, f t = t) → mapAll f ds = ds
  | [], _ => rfl
  | d :: rest, h => by
    obtain ⟨here, further⟩ := List.forall_mem_append.mp h
    rw [mapAll, map_eq_self d here, mapAll_eq_self rest further]

end

theorem root_map {f : Token → Token} (kinds : ∀ t, (f t).kind = t.kind) (d : Derivation) :
    (d.map f).root = d.root := by
  cases d with
  | leaf token => exact congrArg Symbol.terminal (kinds token)
  | node p parts => rfl

theorem roots_mapAll {f : Token → Token} (kinds : ∀ t, (f t).kind = t.kind) (ds : List Derivation) :
    (mapAll f ds).map root = ds.map root := by
  rw [mapAll_eq_map, List.map_map]
  exact List.map_congr_left fun d _ => root_map kinds d

mutual

theorem valid_map {f : Token → Token} (kinds : ∀ t, (f t).kind = t.kind) :
    ∀ d : Derivation, (d.map f).Valid ↔ d.Valid
  | leaf token => ⟨fun _ => .leaf token, fun _ => .leaf _⟩
  | node p parts => by
    have roots := roots_mapAll kinds parts
    have inner := allValid_mapAll kinds parts
    rw [map]
    constructor
    · rintro (_ | ⟨mem, same, valid⟩)
      exact .node mem (roots.symm.trans same) (inner.mp valid)
    · rintro (_ | ⟨mem, same, valid⟩)
      exact .node mem (roots.trans same) (inner.mpr valid)

theorem allValid_mapAll {f : Token → Token} (kinds : ∀ t, (f t).kind = t.kind) :
    ∀ ds : List Derivation, AllValid (mapAll f ds) ↔ AllValid ds
  | [] => ⟨fun _ => .nil, fun _ => .nil⟩
  | d :: rest => by
    have here := valid_map kinds d
    have further := allValid_mapAll kinds rest
    rw [mapAll]
    constructor
    · rintro (_ | ⟨valid, valids⟩)
      exact .cons (here.mp valid) (further.mp valids)
    · rintro (_ | ⟨valid, valids⟩)
      exact .cons (here.mpr valid) (further.mpr valids)

end

mutual

theorem separated_map (f : Token → Token) : ∀ d : Derivation, (d.map f).Separated ↔ d.Separated
  | leaf token => ⟨fun _ => .leaf token, fun _ => .leaf _⟩
  | node p parts => by
    have inner := allSeparated_mapAll f parts
    rw [map]
    constructor
    · rintro (_ | ⟨kept, parts⟩)
      exact .node kept (inner.mp parts)
    · rintro (_ | ⟨kept, parts⟩)
      exact .node kept (inner.mpr parts)

theorem allSeparated_mapAll (f : Token → Token) : ∀ ds, AllSeparated (mapAll f ds) ↔ AllSeparated ds
  | [] => ⟨fun _ => .nil, fun _ => .nil⟩
  | d :: rest => by
    have here := separated_map f d
    have further := allSeparated_mapAll f rest
    rw [mapAll]
    constructor
    · rintro (_ | ⟨kept, keeps⟩)
      exact .cons (here.mp kept) (further.mp keeps)
    · rintro (_ | ⟨kept, keeps⟩)
      exact .cons (here.mpr kept) (further.mpr keeps)

end

/-! ## Places -/

mutual

/-- a row of tokens that differ in places only has the derivation -/
theorem exists_of_tokens : ∀ (d : Derivation) {ts : List Token},
    ts.map Token.unplaced = d.tokens.map Token.unplaced →
      ∃ e : Derivation, e.tokens = ts ∧ e.map Token.unplaced = d.map Token.unplaced
  | leaf token, ts, h => by
    obtain ⟨t, rest, rfl, same, none⟩ := List.map_eq_cons_iff.mp h
    rw [List.map_eq_nil_iff.mp none]
    exact ⟨leaf t, rfl, congrArg leaf same⟩
  | node p parts, ts, h => by
    obtain ⟨es, tokens, same⟩ := exists_of_tokensOf parts h
    exact ⟨node p es, tokens, congrArg (node p) same⟩

theorem exists_of_tokensOf : ∀ (ds : List Derivation) {ts : List Token},
    ts.map Token.unplaced = (tokensOf ds).map Token.unplaced →
      ∃ es, tokensOf es = ts ∧ mapAll Token.unplaced es = mapAll Token.unplaced ds
  | [], ts, h => by
    rw [List.map_eq_nil_iff.mp h]
    exact ⟨[], rfl, rfl⟩
  | d :: rest, ts, h => by
    rw [tokensOf, List.map_append] at h
    obtain ⟨front, back, rfl, here, further⟩ := List.map_eq_append_iff.mp h
    obtain ⟨e, rfl, same⟩ := exists_of_tokens d here
    obtain ⟨es, rfl, sames⟩ := exists_of_tokensOf rest further
    exact ⟨e :: es, rfl, by rw [mapAll, mapAll, same, sames]⟩

end

section
variable {d e : Derivation} (h : e.map Token.unplaced = d.map Token.unplaced)
include h

theorem root_of_unplaced : e.root = d.root := by
  have same := congrArg root h
  rwa [root_map Token.kind_unplaced, root_map Token.kind_unplaced] at same

theorem Valid.of_unplaced (valid : d.Valid) : e.Valid := by
  rw [← valid_map Token.kind_unplaced] at valid ⊢
  rwa [h]

theorem Separated.of_unplaced (separated : d.Separated) : e.Separated := by
  rw [← separated_map Token.unplaced] at separated ⊢
  rwa [h]

end

end Derivation

end Typings
