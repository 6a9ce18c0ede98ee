import Typings.Proofs.Declaration.Growing
import Typings.Proofs.Report.Concatenation
import Typings.Proofs.Syntax.Spans
import Typings.Proofs.Token.Places
/-!
# The places of what is read

Each node of a file that is read is at the first of the tokens that it was written with, so it is at a
token of the text, not in front of the nodes that it is inside of, and behind the nodes in front of it in
its row.

* `Placed tokens n`                  the node stands for these tokens, and what it is made of for stretches
                                     of them;
* `Grown.placed`                     a node stands for the tokens of its tree;
* `Placed.contains`, `PlacedRow.increasing`
                                     places further in and places in a row;
* `SourceFile.read_located`          the places in a file.
-/

namespace Typings

mutual

/-- a node stands for a stretch of tokens and is at the first of them -/
inductive Placed : List Token → Node → Prop
  | mk {t : Token} {rest : List Token} {n : Node} (located : n.loc? = some t.start.loc)
      (rows : ∀ row ∈ n.rows, PlacedRow (t :: rest) row) : Placed (t :: rest) n

/-- nodes stand for stretches that follow one another -/
inductive PlacedRow : List Token → List Node → Prop
  | nil (behind : List Token) : PlacedRow behind []
  | cons (front : List Token) {n : Node} {ns : List Node} {here behind : List Token} (first : Placed here n)
      (further : PlacedRow behind ns) : PlacedRow (front ++ (here ++ behind)) (n :: ns)

end

namespace PlacedRow

theorem behind (front : List Token) {ns : List Node} {tokens : List Token} (h : PlacedRow tokens ns) :
    PlacedRow (front ++ tokens) ns := by
  cases h with
  | nil => exact .nil _
  | cons more first further =>
    rw [← List.append_assoc]
    exact .cons (front ++ more) first further

theorem append {ms : List Node} {behind : List Token} (h' : PlacedRow behind ms) :
    ∀ {ns : List Node} {tokens : List Token}, PlacedRow tokens ns → PlacedRow (tokens ++ behind) (ns ++ ms)
  | _, _, .nil front => h'.behind front
  | _, _, .cons front first further => by
    rw [List.append_assoc, List.append_assoc]
    exact .cons front first (append h' further)

end PlacedRow

/-! ## Nodes of trees -/

mutual

/-- a node stands for the tokens of its tree -/
theorem Grown.placed : ∀ {t : Tree} {n : Node} {tokens : List Token}, Grown t n → t.Spans tokens →
    Placed tokens n
  | _, _, _, .mk located _ parts bases, .node below =>
    .mk located fun row hr => (List.mem_append.mp hr).elim
      (fun hr => GrownRow.placed (parts row hr) below) (fun hr => GrownRow.placed (bases row hr) below)

theorem GrownRow.placed : ∀ {strict : Bool} {owner : Label} {ts : List Tree} {ns : List Node}
    {tokens : List Token}, GrownRow strict owner ts ns → Tree.SpansAll ts tokens → PlacedRow tokens ns
  | _, _, _, _, _, .nil, .nil behind => .nil behind
  | _, _, _, _, _, .skip further, .cons front _ behind =>
    ((GrownRow.placed further behind).behind _).behind front
  | _, _, _, _, _, .take _ _ here further, .cons front first behind =>
    .cons front (Grown.placed here first) (GrownRow.placed further behind)
  | _, _, _, _, _, .inner below further, .cons front (.node inner) behind =>
    (PlacedRow.append (GrownRow.placed further behind) (GrownRow.placed below inner)).behind front

end

/-! ## Places further in, and places in a row -/

/-- a node is at one of its tokens -/
theorem Placed.located {n : Node} {tokens : List Token} (h : Placed tokens n) :
    ∃ t ∈ tokens, n.loc? = some t.start.loc := by
  cases h with
  | mk located _ => exact ⟨_, List.mem_cons_self, located⟩

/-- the nodes of a row stand for some of the tokens of the row -/
theorem PlacedRow.member {m : Node} : ∀ {ns : List Node} {tokens : List Token}, PlacedRow tokens ns →
    m ∈ ns → ∃ here, Placed here m ∧ here.Sublist tokens
  | _, _, .cons front first further, mem => by
    rcases List.mem_cons.mp mem with rfl | mem
    · exact ⟨_, first, .trans (List.sublist_append_left _ _) (List.sublist_append_right front _)⟩
    · obtain ⟨here, placed, sub⟩ := PlacedRow.member further mem
      exact ⟨here, placed, .trans sub
        (.trans (List.sublist_append_right _ _) (List.sublist_append_right front _))⟩

/-- so do the nodes inside another one -/
theorem Placed.contains {n m : Node} (inside : n.Contains m) : ∀ {tokens : List Token}, Placed tokens n →
    ∃ here, Placed here m ∧ here.Sublist tokens := by
  induction inside with
  | part hr hm => exact fun (.mk _ rows) => (rows _ hr).member hm
  | within hr hm _ ih =>
    rintro _ ⟨_, rows⟩
    obtain ⟨middle, placed, sub⟩ := (rows _ hr).member hm
    obtain ⟨here, placed, sub'⟩ := ih placed
    exact ⟨here, placed, sub'.trans sub⟩

/-- no node is in front of one that it is inside of -/
theorem Placed.loc_le {n m : Node} {tokens : List Token} (h : Placed tokens n)
    (sorted : Token.Increasing tokens) (inside : n.Contains m) : ∀ l ∈ n.loc?, ∀ k ∈ m.loc?, l ≤ k := by
  obtain ⟨here, placed, sub⟩ := h.contains inside
  obtain ⟨u, mem, at_⟩ := placed.located
  cases h with
  | mk located _ =>
    rw [located, at_]
    rintro _ ⟨⟩ _ ⟨⟩
    rcases List.mem_cons.mp (sub.subset mem) with rfl | mem
    · exact Loc.le_refl _
    · exact Loc.le_of_lt (List.rel_of_pairwise_cons sorted mem)

/-- each node of a row is behind the nodes in front of it -/
theorem PlacedRow.increasing : ∀ {ns : List Node} {tokens : List Token}, PlacedRow tokens ns →
    Token.Increasing tokens → (ns.filterMap Node.loc?).Pairwise (· < ·)
  | _, _, .nil _, _ => .nil
  | _, _, .cons front first further, sorted => by
    obtain ⟨_, sorted, apart⟩ := List.pairwise_append.mp (List.pairwise_append.mp sorted).2.1
    obtain ⟨t, mem, located⟩ := first.located
    rw [List.filterMap_cons_some located]
    refine .cons (fun k hk => ?_) (further.increasing sorted)
    obtain ⟨m, hm, place⟩ := List.mem_filterMap.mp hk
    obtain ⟨here, placed, sub⟩ := further.member hm
    obtain ⟨u, hu, located'⟩ := placed.located
    rw [located'] at place
    cases place
    exact apart t mem u (sub.subset hu)

/-! ## Files -/

/-- the place of one of the tokens: that of its offset in the text, where the text of the token stands -/
def Token.StartsAt (tokens : List Token) (source : Text) (l : Loc) : Prop :=
  ∃ t ∈ tokens, t.start.loc = l ∧ ∃ front rest, source = front ++ (t.text ++ rest) ∧
    t.start.offset = front.length ∧ l = front.locBehind

theorem Spelled.startsAt {source : Text} {tokens : List Token} (h : Spelled .start source tokens)
    {t : Token} (mem : t ∈ tokens) : Token.StartsAt tokens source t.start.loc := by
  obtain ⟨front, rest, text, start⟩ := h.starts t mem
  have offset : t.start.offset = front.length := by rw [start, Cursor.offset_advance_start]
  have place : t.start.loc = front.locBehind := by rw [start, Cursor.loc_advance]
  exact ⟨t, mem, rfl, front, rest, text, offset, place⟩

/-- the trees of the elements of a file stand for its tokens -/
theorem Derivation.elementTrees_span {d : Derivation} (valid : d.Valid) :
    Tree.SpansAll d.elementTrees d.tokens := by
  cases valid with
  | leaf token => exact .nil [token]
  | node mem roots valids =>
    exact treesOf_span _ valids fun isFile => Automaton.file_not_mem_rhs _ mem (roots ▸ isFile)

namespace SourceFile

/-- the elements of a file that is read stand for the tokens of the text -/
theorem placed_of_read {source : Text} {f : SourceFile} (h : read source = .ok f) :
    ∃ d, parse source = .ok d ∧ Spelled .start source d.tokens ∧
      PlacedRow d.tokens (f.elements.map Node.ofElement) := by
  obtain ⟨d, parsed, elements⟩ := elements_of_read h
  have explains := explains_of_parse parsed
  have grown := @Element.ofTrees_grown (.phrase .file) rfl _ _ elements
  exact ⟨d, parsed, explains.spelled, grown.placed (Derivation.elementTrees_span explains.valid)⟩

theorem Holds.placed {f : SourceFile} {n : Node} (held : f.Holds n) {tokens : List Token}
    (h : PlacedRow tokens (f.elements.map Node.ofElement)) :
    ∃ here, Placed here n ∧ here.Sublist tokens := by
  obtain ⟨e, mem, rfl | inside⟩ := held
  · exact h.member (List.mem_map_of_mem mem)
  · obtain ⟨outer, placed, sub⟩ := h.member (List.mem_map_of_mem mem)
    obtain ⟨here, placed, sub'⟩ := placed.contains inside
    exact ⟨here, placed, sub'.trans sub⟩

/-- the places in a file that is written with some tokens of a text -/
structure Located (f : SourceFile) (source : Text) (tokens : List Token) : Prop where
  starts : ∀ n, f.Holds n → ∃ l, n.loc? = some l ∧ l ≠ ⟨0, 0⟩ ∧ Token.StartsAt tokens source l
  inside : ∀ n m, f.Holds n → n.Contains m → ∀ l ∈ n.loc?, ∀ k ∈ m.loc?, l ≤ k
  rows : ∀ n, f.Holds n → ∀ row ∈ n.rows, (row.filterMap Node.loc?).Pairwise (· < ·)
  elements : ((f.elements.map Node.ofElement).filterMap Node.loc?).Pairwise (· < ·)

/-- **Each node of a file that is read has a place: the line and column of an offset of the text where one
of its tokens starts, never zero and zero.  No node is in front of a node that it is inside of, and the
places in each row of nodes increase, those of the elements of the file too.** -/
theorem read_located {source : Text} {f : SourceFile} (accepted : read source = .ok f) :
    ∃ d, parse source = .ok d ∧ f.Located source d.tokens := by
  obtain ⟨d, parsed, spelled, placed⟩ := placed_of_read accepted
  have sorted := spelled.increasing
  refine ⟨d, parsed, fun n held => ?_, fun n m held inside => ?_, fun n held row hr => ?_,
    placed.increasing sorted⟩
  · obtain ⟨_, within, sub⟩ := held.placed placed
    obtain ⟨t, mem, located⟩ := within.located
    have starts := spelled.startsAt (sub.subset mem)
    refine ⟨_, located, ?_, starts⟩
    obtain ⟨_, _, _, front, _, _, _, place⟩ := starts
    rw [place, Text.locBehind, Ne, Loc.mk.injEq]
    omega
  · obtain ⟨_, within, sub⟩ := held.placed placed
    exact within.loc_le (sorted.sublist sub) inside
  · obtain ⟨_, within, sub⟩ := held.placed placed
    cases within with
    | mk _ rows => exact (rows row hr).increasing (sorted.sublist sub)

open Typings.Derivation Terminal Nonterminal in
/-- an interface with a method -/
def interfaceWithMethod : Derivation :=
  let ascribed (offset : Nat) (type : Derivation) : Derivation :=
    phrase ascription [signAt offset COLON, primary type]
  let reference := phrase typeReference [phrase entityName
    [wordAt 19 NAME "b", phrase moreSegments [signAt 20 DOT, wordAt 21 NAME "c"]]]
  let params := phrase parameterList [phrase anyParameter [phrase parameter [wordAt 16 NAME "x", ascribed 17 reference]]]
  let method := phrase methodSignature [phrase propertyName [wordAt 14 NAME "f"], phrase callSignature
    [signAt 15 LPAR, params, signAt 22 RPAR, ascribed 23 (phrase predefinedType [signAt 25 ANY])]]
  interfaceOf (objectAt 12 method 29)

theorem parse_interfaceWithMethod : parse "interface A \x7b f(x: b.c): any \x7d" = .ok interfaceWithMethod :=
  parse_of_stand (by decide +kernel) rfl (by decide +kernel) (by decide)

theorem read_interfaceWithMethod :
    let reference : TypeExpr := .reference ⟨1, 20⟩ "b.c" []
    let method : TypeMember := .method ⟨1, 15⟩ "f"
      (.mk [] [.single ⟨1, 17⟩ "x" (some reference) false none] (some (.predefined ⟨1, 26⟩ "any"))) false
    read "interface A \x7b f(x: b.c): any \x7d" =
      .ok ⟨[.interfaceElement ⟨1, 1⟩ false ⟨⟨1, 1⟩, "A", [], [], [method]⟩]⟩ :=
  read_of_elements parse_interfaceWithMethod rfl

theorem read_located_interfaceWithMethod :
    let text : Text := "interface A \x7b f(x: b.c): any \x7d"
    let reference : TypeExpr := .reference ⟨1, 20⟩ "b.c" []
    let method : TypeMember := .method ⟨1, 15⟩ "f"
      (.mk [] [.single ⟨1, 17⟩ "x" (some reference) false none] (some (.predefined ⟨1, 26⟩ "any"))) false
    let f : SourceFile := ⟨[.interfaceElement ⟨1, 1⟩ false ⟨⟨1, 1⟩, "A", [], [], [method]⟩]⟩
    read text = .ok f ∧ parse text = .ok interfaceWithMethod ∧ f.Located text interfaceWithMethod.tokens := by
  intro text reference method f
  obtain ⟨d, parsed, located⟩ := read_located read_interfaceWithMethod
  obtain rfl : interfaceWithMethod = d := Except.ok.inj (parse_interfaceWithMethod.symm.trans parsed)
  exact ⟨read_interfaceWithMethod, parse_interfaceWithMethod, located⟩

end SourceFile

end Typings
