import Typings.Proofs.Report.Spacing
/-!
# Which bad literal is reported

The literals of a text are read from left to right, but in an index signature the type of the values is read
before that of the keys.  The first literal in this order that cannot be decoded is reported.  It is the first one
in the text, unless that one stands among the keys and the reported one among the values of an index signature.

* `Token.First`                       the first undecodable token of a row;
* `Derivation.Indexes`                the types of keys and of values in an index signature;
* `Derivation.fronted`                what is in front of the first bad literal that is read;
* `SourceFile.read_badLiteral`        the main result.
-/

namespace Typings

/-! ## The first in a row -/

/-- a token is the first one in a row that cannot be decoded -/
def Token.First (tokens : List Token) (t : Token) : Prop :=
  ∃ front rest, tokens = front ++ t :: rest ∧ t.Undecodable ∧ ∀ u ∈ front, ¬ u.Undecodable

theorem Token.First.mem {tokens : List Token} {t : Token} (h : First tokens t) : t ∈ tokens ∧ t.Undecodable := by
  obtain ⟨front, rest, rfl, bad, _⟩ := h
  exact ⟨List.mem_append_right _ List.mem_cons_self, bad⟩

/-- the first one of two rows -/
theorem Token.First.of_append {front behind : List Token} {t : Token} (h : First (front ++ behind) t) :
    First front t ∨ (∀ u ∈ front, ¬ u.Undecodable) ∧ First behind t := by
  obtain ⟨before, rest, e, bad, good⟩ := h
  rcases List.append_eq_append_iff.mp e with ⟨more, rfl, rfl⟩ | ⟨more, rfl, split⟩
  · exact .inr ⟨fun u hu => good u (List.mem_append_left _ hu), more, rest, rfl, bad,
      fun u hu => good u (List.mem_append_right _ hu)⟩
  · cases more with
    | nil =>
      rw [List.append_nil]
      exact .inr ⟨good, [], rest, split.symm, bad, List.forall_mem_nil _⟩
    | cons u more =>
      cases split
      exact .inl ⟨before, more, rfl, bad, good⟩

/-- the first error in a row is that of its first undecodable token -/
theorem Token.first_of_findSome? {tokens : List Token} (strings : ∀ t ∈ tokens, t.kind = .STRING) {e : BuildError}
    (h : tokens.findSome? fault? = some e) :
    ∃ t fault, First tokens t ∧ Literal.decode t.text = .error fault ∧ e = .badLiteral t.text fault t.start.loc := by
  obtain ⟨front, t, rest, rfl, found, good⟩ := List.findSome?_eq_some_iff.mp h
  obtain ⟨fault, bad, rfl⟩ := fault?_eq_some_iff.mp found
  have isString := strings t (List.mem_append_right _ List.mem_cons_self)
  refine ⟨t, fault, ⟨front, rest, rfl, ⟨isString, fault, bad⟩, fun u hu => ?_⟩, bad, rfl⟩
  rintro ⟨_, fault', bad'⟩
  exact fault?_ne_none bad' (good u hu)

/-! ## Index signatures -/

namespace Derivation
open Terminal Nonterminal

/-- an index signature in a derivation, with its types of keys and of values -/
inductive Indexes : Derivation → Derivation → Derivation → Prop
  | here {p : Production} {opening name colon key closing value : Derivation} (isIndex : p.lhs = indexSignature) :
      Indexes (node p [opening, name, colon, key, closing, value]) key value
  | inside {p : Production} {parts : List Derivation} {d key value : Derivation} (mem : d ∈ parts)
      (inner : Indexes d key value) : Indexes (node p parts) key value

/-- the production of index signatures -/
theorem indexSignature_rhs : ∀ p ∈ productions, p.lhs = indexSignature →
    p.rhs = ([LSQB, NAME, COLON, typeExpr, RSQB, ascription] : List Symbol) := by
  decide +kernel

/-- the parts of an index signature: only the types hold literals -/
theorem parts_of_indexSignature {p : Production} {parts : List Derivation} (mem : p ∈ productions)
    (roots : parts.map root = p.rhs) (isIndex : p.lhs = indexSignature) : ∃ opening name colon closing key value,
      parts = [leaf opening, leaf name, leaf colon, key, leaf closing, value] ∧
        ∀ t ∈ [opening, name, colon, closing], t.kind ≠ STRING := by
  have isLeaf : ∀ {d : Derivation} {t : Terminal}, d.root = .terminal t → t ≠ STRING →
      ∃ token, d = leaf token ∧ token.kind ≠ STRING := by
    intro d t root other
    cases d with
    | node => cases root
    | leaf token => exact ⟨token, rfl, Symbol.terminal.inj root ▸ other⟩
  rw [indexSignature_rhs p mem isIndex] at roots
  simp only [List.map_eq_cons_iff, List.map_eq_nil_iff] at roots
  obtain ⟨opening, _, rfl, isOpening, name, _, rfl, isName, colon, _, rfl, isColon, key, _, rfl, -,
    closing, _, rfl, isClosing, value, _, rfl, -, rfl⟩ := roots
  obtain ⟨opening, rfl, other⟩ := isLeaf isOpening nofun
  obtain ⟨name, rfl, other'⟩ := isLeaf isName nofun
  obtain ⟨colon, rfl, other''⟩ := isLeaf isColon nofun
  obtain ⟨closing, rfl, other'''⟩ := isLeaf isClosing nofun
  refine ⟨opening, name, colon, closing, key, value, rfl, ?_⟩
  simp only [List.forall_mem_cons]
  exact ⟨other, other', other'', other''', List.forall_mem_nil _⟩

/-- no token of a derivation is bad if no literal is -/
theorem good_of_literals {d : Derivation} (h : ∀ t ∈ d.literals, ¬ t.Undecodable) : ∀ t ∈ d.tokens, ¬ t.Undecodable :=
  fun t mem bad => h t ((mem_literals t d).mpr ⟨mem, bad.1⟩) bad

/-- the bad tokens in front of `t` are among the keys of index signatures with `t` among the values -/
def Precedes (indexes : Derivation → Derivation → Prop) (front : List Token) (t : Token) : Prop :=
  ∀ u ∈ front, u.Undecodable → ∃ key value, indexes key value ∧ u ∈ key.tokens ∧ t ∈ value.tokens

/-- the first bad literal that is read is the first bad token, but for those in index signatures -/
def Fronted (d : Derivation) : Prop :=
  ∀ t, Token.First d.literals t → ∃ front rest, d.tokens = front ++ t :: rest ∧ Precedes d.Indexes front t

/-- a row that is read from left to right -/
theorem exists_front_row {ds : List Derivation} (h : ∀ d ∈ ds, d.Fronted) {t : Token}
    (first : Token.First (literalsOf false ds) t) : ∃ front rest, tokensOf ds = front ++ t :: rest ∧
      Precedes (fun key value => ∃ d ∈ ds, d.Indexes key value) front t := by
  induction ds with
  | nil =>
    obtain ⟨front, rest, e, -⟩ := first
    exact absurd e.symm (List.append_ne_nil_of_right_ne_nil _ (List.cons_ne_nil _ _))
  | cons d ds ih =>
    obtain ⟨fronted, h⟩ := List.forall_mem_cons.mp h
    rw [literalsOf, if_neg Bool.false_ne_true] at first
    rcases first.of_append with here | ⟨good, further⟩
    · obtain ⟨front, rest, e, precedes⟩ := fronted t here
      refine ⟨front, rest ++ tokensOf ds, by rw [tokensOf, e, List.append_assoc]; rfl, fun u hu bad => ?_⟩
      obtain ⟨key, value, indexes, inside⟩ := precedes u hu bad
      exact ⟨key, value, ⟨d, List.mem_cons_self, indexes⟩, inside⟩
    · obtain ⟨front, rest, e, precedes⟩ := ih h further
      refine ⟨d.tokens ++ front, rest, by rw [tokensOf, e, List.append_assoc], fun u hu bad => ?_⟩
      rcases List.mem_append.mp hu with hu | hu
      · exact absurd bad (good_of_literals good u hu)
      · obtain ⟨key, value, ⟨e, he, indexes⟩, inside⟩ := precedes u hu bad
        exact ⟨key, value, ⟨e, List.mem_cons_of_mem _ he, indexes⟩, inside⟩

/-- an index signature: the type of the values is read first -/
theorem fronted_index {p : Production} {opening name colon closing : Token} {key value : Derivation}
    (isIndex : p.lhs = indexSignature) (others : ∀ t ∈ [opening, name, colon, closing], t.kind ≠ STRING)
    (hk : key.Fronted) (hv : value.Fronted) :
    Fronted (node p [leaf opening, leaf name, leaf colon, key, leaf closing, value]) := by
  intro t first
  simp only [List.forall_mem_cons] at others
  obtain ⟨noOpening, noName, noColon, noClosing, -⟩ := others
  have order : (node p [leaf opening, leaf name, leaf colon, key, leaf closing, value]).literals =
      value.literals ++ key.literals := by
    simp [literals, literalsOf, isIndex, noOpening, noName, noColon, noClosing]
  have tokens : (node p [leaf opening, leaf name, leaf colon, key, leaf closing, value]).tokens =
      [opening, name, colon] ++ (key.tokens ++ ([closing] ++ value.tokens)) := by
    simp [Derivation.tokens, tokensOf]
  have marks : ∀ u ∈ [opening, name, colon], ¬ u.Undecodable := by
    simp only [List.forall_mem_cons]
    exact ⟨fun bad => noOpening bad.1, fun bad => noName bad.1, fun bad => noColon bad.1, List.forall_mem_nil _⟩
  rw [order] at first
  rcases first.of_append with here | ⟨good, further⟩
  · obtain ⟨front, rest, e, precedes⟩ := hv t here
    refine ⟨[opening, name, colon] ++ (key.tokens ++ ([closing] ++ front)), rest, ?_, fun u hu bad => ?_⟩
    · rw [tokens, e]
      simp only [List.append_assoc]
    · rcases List.mem_append.mp hu with hu | hu
      · exact absurd bad (marks u hu)
      rcases List.mem_append.mp hu with hu | hu
      · exact ⟨key, value, .here isIndex, hu, e ▸ List.mem_append_right _ List.mem_cons_self⟩
      rcases List.mem_cons.mp hu with rfl | hu
      · exact absurd bad.1 noClosing
      · obtain ⟨key', value', indexes, inside⟩ := precedes u hu bad
        exact ⟨key', value', .inside (by simp) indexes, inside⟩
  · obtain ⟨front, rest, e, precedes⟩ := hk t further
    refine ⟨[opening, name, colon] ++ front, rest ++ ([closing] ++ value.tokens), ?_, fun u hu bad => ?_⟩
    · rw [tokens, e]
      simp only [List.append_assoc, List.cons_append]
    · rcases List.mem_append.mp hu with hu | hu
      · exact absurd bad (marks u hu)
      · obtain ⟨key', value', indexes, inside⟩ := precedes u hu bad
        exact ⟨key', value', .inside (by simp) indexes, inside⟩

mutual

/-- what is in front of the first bad literal that is read -/
theorem fronted : ∀ d : Derivation, d.Valid → d.Fronted
  | leaf token, _ => by
    rintro t ⟨front, rest, e, bad, -⟩
    have mem : t ∈ (leaf token).literals := e ▸ List.mem_append_right _ List.mem_cons_self
    obtain rfl : t = token := List.mem_singleton.mp ((mem_literals t _).mp mem).1
    exact ⟨[], [], rfl, fun _ h => absurd h List.not_mem_nil⟩
  | node p parts, .node mem roots valids => by
    have each := frontedAll parts valids
    by_cases isIndex : p.lhs = indexSignature
    · obtain ⟨opening, name, colon, closing, key, value, rfl, others⟩ := parts_of_indexSignature mem roots isIndex
      exact fronted_index isIndex others (each key (by simp)) (each value (by simp))
    · intro t first
      rw [literals, beq_eq_false_iff_ne.mpr isIndex] at first
      obtain ⟨front, rest, e, precedes⟩ := exists_front_row each first
      refine ⟨front, rest, e, fun u hu bad => ?_⟩
      obtain ⟨key, value, ⟨d, hd, indexes⟩, inside⟩ := precedes u hu bad
      exact ⟨key, value, .inside hd indexes, inside⟩

theorem frontedAll : ∀ ds : List Derivation, AllValid ds → ∀ d ∈ ds, d.Fronted
  | [], _ => fun _ h => absurd h List.not_mem_nil
  | d :: rest, .cons valid valids => List.forall_mem_cons.mpr ⟨fronted d valid, frontedAll rest valids⟩

end

end Derivation

/-! ## What is reported -/

namespace SourceFile

/-- **In a text that is accepted and holds a literal that cannot be decoded, the first bad one in the order of
reading is reported, with its text and its place.  Each bad one in front of it stands in the type of the keys of an
index signature, and the reported one in the type of the values.** -/
theorem read_badLiteral {source : Text} {d : Derivation} (accepted : parse source = .ok d)
    (bad : ∃ t ∈ d.tokens, t.Undecodable) :
    ∃ front t rest fault, d.tokens = front ++ t :: rest ∧ Token.First d.literals t ∧
      Literal.decode t.text = .error fault ∧
      read source = .error (.buildError (.badLiteral t.text fault t.start.loc)) ∧
      ∀ u ∈ front, u.Undecodable → ∃ key value, d.Indexes key value ∧ u ∈ key.tokens ∧ t ∈ value.tokens := by
  have outcome := read_of_parse accepted
  cases first : d.literals.findSome? Token.fault? with
  | none =>
    obtain ⟨t, mem, isString, fault, failed⟩ := bad
    have good := List.findSome?_eq_none_iff.mp first t ((d.mem_literals t).mpr ⟨mem, isString⟩)
    exact absurd good (Token.fault?_ne_none failed)
  | some e =>
    rw [first] at outcome
    obtain ⟨t, fault, isFirst, failed, rfl⟩ :=
      Token.first_of_findSome? (fun t mem => ((d.mem_literals t).mp mem).2) first
    obtain ⟨front, rest, tokens, precedes⟩ := Derivation.fronted d (explains_of_parse accepted).valid t isFirst
    exact ⟨front, t, rest, fault, tokens, isFirst, failed, outcome, precedes⟩

open Typings.Derivation Terminal Nonterminal in
/-- an index signature with a bad literal in each of its types -/
def badIndex : Derivation :=
  let property (offset : Nat) (literal : Text) : Derivation :=
    phrase propertySignature [phrase propertyName [wordAt offset STRING literal]]
  let key := primary (objectAt 20 (property 22 "\"\\x\"") 27)
  let value := primary (objectAt 33 (property 35 "\"\\u\"") 40)
  interfaceOf (objectAt 12 (phrase indexSignature [signAt 14 LSQB, wordAt 16 NAME "k", signAt 18 COLON, key,
    signAt 29 RSQB, phrase ascription [signAt 31 COLON, value]]) 42)

/-- the text of `badIndex` -/
theorem parse_badIndex : parse "interface A \x7b [ k : \x7b \"\\x\" \x7d ] : \x7b \"\\u\" \x7d \x7d" = .ok badIndex :=
  parse_of_stand (by decide +kernel) rfl (by decide +kernel) (by decide)

/-- the literal among the keys is the first one in the text that cannot be decoded -/
theorem first_badIndex : Token.First badIndex.tokens ⟨.STRING, "\"\\x\"", ⟨22, 1, 23⟩⟩ := by
  refine ⟨badIndex.tokens.take 7, badIndex.tokens.drop 8, by decide, ⟨rfl, .escape 1 0 1 .shortHex2, rfl⟩, ?_⟩
  have strings : ∀ u ∈ badIndex.tokens.take 7, u.kind ≠ .STRING := by decide
  exact fun u mem bad => strings u mem bad.1

theorem read_badLiteral_indexSignature :
    let text : Text := "interface A \x7b [ k : \x7b \"\\x\" \x7d ] : \x7b \"\\u\" \x7d \x7d"
    parse text = .ok badIndex ∧ (∃ t ∈ badIndex.tokens, t.Undecodable) ∧
      ∃ front t rest fault, badIndex.tokens = front ++ t :: rest ∧ Token.First badIndex.literals t ∧
        Literal.decode t.text = .error fault ∧
        read text = .error (.buildError (.badLiteral t.text fault t.start.loc)) ∧
        ∀ u ∈ front, u.Undecodable → ∃ key value, badIndex.Indexes key value ∧ u ∈ key.tokens ∧ t ∈ value.tokens := by
  have bad : ∃ t ∈ badIndex.tokens, t.Undecodable := ⟨_, first_badIndex.mem⟩
  exact ⟨parse_badIndex, bad, read_badLiteral parse_badIndex bad⟩

/-- the first bad literal stands in column 23, but the one in column 36 is reported -/
theorem read_badIndex_behind :
    let text : Text := "interface A \x7b [ k : \x7b \"\\x\" \x7d ] : \x7b \"\\u\" \x7d \x7d"
    parse text = .ok badIndex ∧ Token.First badIndex.tokens ⟨.STRING, "\"\\x\"", ⟨22, 1, 23⟩⟩ ∧
      read text = .error (.buildError (.badLiteral "\"\\u\"" (.escape 1 0 1 .shortHex4) ⟨1, 36⟩)) := by
  have found : badIndex.literals.findSome? Token.fault? =
      some (.badLiteral "\"\\u\"" (.escape 1 0 1 .shortHex4) ⟨1, 36⟩) := by
    decide
  have outcome := read_of_parse parse_badIndex
  rw [found] at outcome
  exact ⟨parse_badIndex, first_badIndex, outcome⟩

end SourceFile

end Typings
