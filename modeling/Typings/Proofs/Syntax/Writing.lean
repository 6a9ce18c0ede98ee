import Mathlib.Tactic.Choose
import Typings.Proofs.Declaration.Rows
import Typings.Proofs.Syntax.Phrasing
/-!
# Rows of symbols in writing

A text is written for a row of symbols of the grammar, one symbol behind the other: keywords and marks,
names, and phrases by what they are made of.  With the text come the trees that the row shows as.  The
derivation behind them is only needed in the end.

* `Writes words symbols text trees`       a row of symbols can be written as a text that shows as trees;
* `Writes.sign`, `punctuation`, `name`, `numeral`    one more symbol in front;
* `Writes.append`                         one row behind another;
* `Writes.phrase`                         a phrase for the row that it is made of;
* `Writes.series`                         phrases of a kind with a separator between neighbours;
* `Writes.exists_part`                    the derivation of one symbol.
-/

namespace Typings
open Terminal Nonterminal Typings.Derivation

/-! ## The rows of phrases -/

namespace Symbol

/-- a symbol, or nothing -/
def perhaps (s : Symbol) : List (List Symbol) := [[], [s]]

/-- what can stand behind a name: a question mark and a type -/
def optionals : List (List Symbol) := [[], [ascription], [QMARK], [QMARK, ascription]]

/-- type parameters, parameters in parentheses, and a row behind them -/
def calls (tail : List Symbol) : List (List Symbol) :=
  (perhaps typeParameters).flatMap fun a => (perhaps parameterList).map fun b =>
    a ++ .terminal LPAR :: (b ++ .terminal RPAR :: tail)

theorem mem_calls {a b : List Symbol} (ha : a ∈ perhaps typeParameters) (hb : b ∈ perhaps parameterList)
    (tail : List Symbol) : a ++ .terminal LPAR :: (b ++ .terminal RPAR :: tail) ∈ calls tail :=
  List.mem_flatMap.mpr ⟨a, ha, List.mem_map_of_mem hb⟩

theorem calls_ne_nil {row tail : List Symbol} (mem : row ∈ calls tail) : row ≠ [] := by
  obtain ⟨a, _, mem⟩ := List.mem_flatMap.mp mem
  obtain ⟨b, _, rfl⟩ := List.mem_map.mp mem
  exact List.append_ne_nil_of_right_ne_nil _ (List.cons_ne_nil _ _)

end Symbol

open Typings.Symbol in
/-- the rows that are written for types and interfaces, and that are made of parts -/
def Nonterminal.rows : Nonterminal → List (List Symbol)
  | typeExpr => [[primaryType], [functionType], [constructorType]]
  | primaryType => [[predefinedType], [typeReference], [typeQuery], [objectType], [arrayType]]
  | predefinedType => predefinedWords.map fun t => [.terminal t]
  | typeReference => (perhaps typeArguments).map (.nonterminal entityName :: ·)
  | typeArguments => [[LESSTHAN, typeExpr, MORETHAN], [LESSTHAN, typeExpr, moreTypeArguments, MORETHAN]]
  | typeQuery => [[TYPEOF, entityName]]
  | arrayType => [[primaryType, LSQB, RSQB]]
  | functionType => calls [ARROW, typeExpr]
  | constructorType => (calls [ARROW, typeExpr]).map (.terminal NEW :: ·)
  | ascription => [[COLON, typeExpr]]
  | typeParameters =>
    [[LESSTHAN, typeParameter, MORETHAN], [LESSTHAN, typeParameter, moreTypeParameters, MORETHAN]]
  | typeParameter => [[NAME], [NAME, EXTENDS, typeExpr]]
  | parameterList => [[anyParameter], [anyParameter, moreParameters]]
  | anyParameter => [[parameter], [restParameter]]
  | parameter => optionals.map (.terminal NAME :: ·)
  | restParameter => (perhaps ascription).map fun c => .terminal ELLIPSIS :: .terminal NAME :: c
  | accessibility => accessWords.map fun t => [.terminal t]
  | typeMember =>
    [[propertySignature], [methodSignature], [callSignature], [constructSignature], [indexSignature]]
  | objectMembers => [[typeMember, memberSeparator]]
  | memberSeparator => [[SEMICOLON]]
  | propertyName => [[NAME], [NUMERAL]]
  | propertySignature => optionals.map (.nonterminal propertyName :: ·)
  | methodSignature => [[propertyName, callSignature], [propertyName, QMARK, callSignature]]
  | callSignature => (perhaps ascription).flatMap calls
  | constructSignature => ((perhaps ascription).flatMap calls).map (.terminal NEW :: ·)
  | indexSignature => [[LSQB, NAME, COLON, typeExpr, RSQB, ascription]]
  | objectType => [[LBRACE, RBRACE]]
  | interfaceDeclaration => [[INTERFACE, NAME, objectType]]
  | interfaceElement => [[interfaceDeclaration]]
  | _ => []

/-- no separator is left out in the rows, and no other keywords come where a part may begin with a name -/
theorem Nonterminal.rows_checked : ∀ n ∈ Nonterminal.all, ∀ row ∈ n.rows,
    ⟨n, row⟩ ∈ separated ∧ (n ∈ fitting ∨ Production.Fits ⟨n, row⟩) ∧ n ≠ .file := by
  decide +kernel

theorem Nonterminal.fits_of_row {n : Nonterminal} {row : List Symbol} (mem : row ∈ n.rows) :
    ⟨n, row⟩ ∈ separated ∧ Production.Fits ⟨n, row⟩ ∧ n ≠ .file := by
  obtain ⟨kept, fits, part⟩ := rows_checked n n.mem_all row mem
  exact ⟨kept, fits.elim (Dot.checked.1 _ (mem_productions_of_separated kept)) id, part⟩

/-- the phrase for a row of parts is a part -/
theorem Derivation.isPart_row {words : List Terminal} {n : Nonterminal} {parts : List Derivation}
    (mem : parts.map root ∈ n.rows) (isParts : ∀ d ∈ parts, IsPart d.root.openingWords d.root d)
    (first : ∀ d ∈ parts.head?, IsPart words d.root d) : IsPart words n (phrase n parts) := by
  obtain ⟨kept, fits, part⟩ := fits_of_row mem
  exact isPart_of_fits part kept fits isParts first

/-! ## Rows in writing -/

/-- a row of symbols can be written as a text that shows as some trees, where none but some keywords come in
front of the row -/
def Writes (words : List Terminal) (symbols : List Symbol) (text : Text) (trees : List Tree) : Prop :=
  ∃ ds : List Derivation, ds.map root = symbols ∧ (∀ d ∈ ds, IsPart d.root.openingWords d.root d) ∧
    (∀ d ∈ ds.head?, IsPart words d.root d) ∧ Written (tokensOf ds) text ∧ treesOf ds = trees

/-- a keyword or a mark that shows, shows as a token -/
theorem Derivation.trees_kept {t : Terminal} {spelling : String} (spelled : t.spelling? = some spelling)
    (kept : t.isKept = true) : (Derivation.sign t).trees = [.leaf (some t) spelling Cursor.start.loc] := by
  rw [Derivation.sign, trees, spelled]
  exact if_pos kept

namespace Writes
variable {words more : List Terminal} {symbols tail : List Symbol} {text behind : Text} {ts us : List Tree}

theorem nil (words : List Terminal) : Writes words [] [] [] :=
  ⟨[], rfl, fun _ h => absurd h List.not_mem_nil, fun _ h => absurd h (Option.not_mem_none _), .nil, rfl⟩

/-- no keyword at all comes in front of a name -/
theorem free_nil (name : Text) : ∀ u ∈ ([] : List Terminal), u.isWord name = false :=
  fun _ h => absurd h List.not_mem_nil

/-! ## One more symbol -/

/-- a token in front of a row -/
theorem cons {d : Derivation} {token : Token} (leaf : d.tokens = [token])
    (isToken : token.kind.Matches token.text []) (plain : IsPart d.root.openingWords d.root d)
    (first : IsPart words d.root d) (ends : ¬ text.Begins token.kind.goesOn) (h : Writes more symbols text ts) :
    Writes words (d.root :: symbols) (token.text ++ text) (d.trees ++ ts) := by
  obtain ⟨ds, rfl, parts, -, written, rfl⟩ := h
  refine ⟨d :: ds, rfl, List.forall_mem_cons.mpr ⟨plain, parts⟩, by rintro _ ⟨⟩; exact first, ?_, rfl⟩
  rw [tokensOf, leaf]
  exact .lexeme isToken ends written

section
variable {t : Terminal} {spelling : String}

theorem cons_sign (spelled : t.spelling? = some spelling) (other : t ≠ .EQUAL) (ends : ¬ text.Begins t.goesOn)
    (h : Writes more symbols text ts) (words : List Terminal) :
    Writes words (t :: symbols) (Text.ofString spelling ++ text) ((Derivation.sign t).trees ++ ts) := by
  have noName : t ≠ .NAME := by
    rintro rfl
    cases spelled
  have noString : t ≠ .STRING := by
    rintro rfl
    cases spelled
  have isSign : ∀ words, IsPart words t (Derivation.sign t) := isPart_sign ⟨noName, noString, other⟩
  have tokens : (Derivation.sign t).tokens = [⟨t, Text.ofString spelling, .start⟩] := by
    rw [tokens_sign, spelled, Option.getD_some]
  exact cons tokens (.spelled spelled) (isSign _) (isSign _) ends h

/-- a keyword or a mark that does not show -/
theorem sign (spelled : t.spelling? = some spelling) (other : t ≠ .EQUAL) (dropped : t.isKept = false)
    (ends : ¬ text.Begins t.goesOn) (h : Writes more symbols text ts) (words : List Terminal) :
    Writes words (t :: symbols) (Text.ofString spelling ++ text) ts := by
  have all := h.cons_sign spelled other ends words
  rwa [trees_sign dropped, List.nil_append] at all

/-- a punctuation mark that does not show -/
theorem punctuation (spelled : t.spelling? = some spelling) (isMark : t.isMark = true)
    (h : Writes more symbols text ts) (words : List Terminal) :
    Writes words (t :: symbols) (Text.ofString spelling ++ text) ts := by
  have other : t ≠ .EQUAL := by
    rintro rfl
    cases isMark
  have dropped : t.isKept = false := by
    cases kept : t.isKept with
    | false => rfl
    | true =>
      rw [Terminal.isMark, kept] at isMark
      cases isMark
  exact h.sign spelled other dropped (not_begins_of_isMark isMark _) words

/-- a punctuation mark by itself -/
theorem closing (spelled : t.spelling? = some spelling) (isMark : t.isMark = true) (words : List Terminal) :
    Writes words [.terminal t] spelling [] := by
  have alone := (nil []).punctuation spelled isMark words
  rwa [List.append_nil] at alone

/-- a keyword or a mark that shows -/
theorem mark (spelled : t.spelling? = some spelling) (other : t ≠ .EQUAL) (kept : t.isKept = true)
    (ends : ¬ text.Begins t.goesOn) (h : Writes more symbols text ts) (words : List Terminal) :
    Writes words (t :: symbols) (Text.ofString spelling ++ text)
      (.leaf (some t) (Text.ofString spelling) Cursor.start.loc :: ts) := by
  have all := h.cons_sign spelled other ends words
  rwa [trees_kept spelled kept] at all

end

/-- a name that is none of the keywords in front of it -/
theorem name {name : Text} (isName : name.isName = true) (free : ∀ u ∈ words, u.isWord name = false)
    (ends : text.Apart) (h : Writes more symbols text ts) :
    Writes words (NAME :: symbols) (name ++ text) (.leaf (some NAME) name Cursor.start.loc :: ts) :=
  cons (d := word NAME name) rfl (matches_name isName) (isPart_name (free_nil name))
    (isPart_name free) (ends.not_begins nofun) h

/-- a number -/
theorem numeral {number : Text} (isNumber : NUMERAL.Matches number []) (ends : text.Apart)
    (h : Writes more symbols text ts) :
    Writes words (NUMERAL :: symbols) (number ++ text)
      (.leaf (some NUMERAL) number Cursor.start.loc :: ts) := by
  have isPart : ∀ words, IsPart words NUMERAL (word NUMERAL number) := fun _ =>
    { root := rfl, part := nofun, valid := .leaf _, parted := .leaf _, unworded := fun _ _ => nofun
      printed := List.forall_mem_singleton.mpr ⟨rfl, nofun, nofun⟩ }
  exact cons (d := word NUMERAL number) rfl isNumber (isPart _) (isPart _)
    (ends.not_begins nofun) h

/-! ## Rows -/

/-- one more space in front of a row -/
theorem spaced (h : Writes words symbols text ts) (some : symbols ≠ []) :
    Writes words symbols (Text.ofString " " ++ text) ts := by
  obtain ⟨ds, rfl, parts, first, written, trees⟩ := h
  refine ⟨ds, rfl, parts, first, ?_, trees⟩
  cases ds with
  | nil => exact absurd rfl some
  | cons d ds =>
    have isPart := parts d List.mem_cons_self
    obtain ⟨token, tokens, e⟩ := List.exists_cons_of_ne_nil
      (tokens_ne_nil isPart.valid (isPart.root ▸ isPart.part))
    rw [tokensOf, e, List.cons_append] at written ⊢
    exact written.spaced

/-- a row behind another one -/
theorem append (h : Writes words symbols text ts) (h' : Writes words tail behind us) (apart : behind.Apart) :
    Writes words (symbols ++ tail) (text ++ behind) (ts ++ us) := by
  obtain ⟨ds, rfl, parts, first, written, rfl⟩ := h
  obtain ⟨es, rfl, parts', first', written', rfl⟩ := h'
  refine ⟨ds ++ es, List.map_append, List.forall_mem_append.mpr ⟨parts, parts'⟩, ?_, ?_, treesOf_append _ _⟩
  · cases ds with
    | nil => exact first'
    | cons d ds => exact first
  · rw [tokensOf_append]
    refine written.beside written' (fun t mem => ?_) apart
    rw [tokensOf_eq_flatMap] at mem
    obtain ⟨d, hd, mem⟩ := List.mem_flatMap.mp mem
    exact ((parts d hd).printed t mem).kind.2

/-! ## Phrases -/

/-- one symbol has a derivation -/
theorem exists_part {s : Symbol} (h : Writes words [s] text ts) :
    ∃ d, IsPart words s d ∧ Written d.tokens text ∧ d.trees = ts := by
  obtain ⟨ds, roots, -, first, written, trees⟩ := h
  obtain ⟨d, rfl, rfl⟩ := List.map_eq_singleton_iff.mp roots
  rw [treesOf, treesOf, List.append_nil] at trees
  exact ⟨d, first d rfl, tokensOf_singleton d ▸ written, trees⟩

/-- a derivation of one symbol -/
theorem of_part {s : Symbol} {d : Derivation} (h : IsPart words s d) (sub : s.openingWords ⊆ words)
    (written : Written d.tokens text) (trees : d.trees = ts) : Writes words [s] text ts := by
  obtain rfl := h.root
  refine ⟨[d], rfl, List.forall_mem_singleton.mpr (h.mono fun _ h => sub h), by rintro _ ⟨⟩; exact h, ?_, ?_⟩
  · rwa [tokensOf_singleton]
  · rw [treesOf, treesOf, List.append_nil, trees]

/-- the phrase for the symbols of a production that fits -/
theorem fitted {n : Nonterminal} (h : Writes words symbols text ts) (kept : ⟨n, symbols⟩ ∈ separated)
    (fits : Production.Fits ⟨n, symbols⟩) (part : n ≠ .file) (sub : (Symbol.nonterminal n).openingWords ⊆ words) :
    Writes words [.nonterminal n] text (shown n Cursor.start.loc ts) := by
  obtain ⟨ds, rfl, parts, first, written, rfl⟩ := h
  have isPart := isPart_of_fits part kept fits parts first
  exact of_part isPart sub written isPart.trees

section
variable {n : Nonterminal} (h : Writes words symbols text ts) (mem : symbols ∈ n.rows)
  (sub : (Symbol.nonterminal n).openingWords ⊆ words)
include h mem sub

/-- the phrase for a row -/
theorem phrase : Writes words [.nonterminal n] text (shown n Cursor.start.loc ts) := by
  obtain ⟨kept, fits, part⟩ := fits_of_row mem
  exact h.fitted kept fits part sub

/-- the phrase for a row, if it shows as its parts -/
theorem spliced (isSpliced : n.shape = .spliced) : Writes words [.nonterminal n] text ts := by
  have whole := h.phrase mem sub
  unfold shown at whole
  rwa [isSpliced] at whole

/-- the phrase for a row, if it shows as a node -/
theorem node (isNode : n.shape = .node) :
    Writes words [.nonterminal n] text [.node (.phrase n) Cursor.start.loc ts] := by
  have whole := h.phrase mem sub
  unfold shown at whole
  rwa [isNode] at whole

end

/-- the phrase for a row of one tree, if it shows as its only part -/
theorem transparent {n : Nonterminal} {tree : Tree} (h : Writes words symbols text [tree]) (mem : symbols ∈ n.rows)
    (sub : (Symbol.nonterminal n).openingWords ⊆ words) (passesOn : n.shape = .transparent) :
    Writes words [.nonterminal n] text [tree] := by
  have whole := h.phrase mem sub
  rwa [shown_singleton passesOn] at whole

/-- a dotted name -/
theorem entity {first : Text} {more : List Text} (names : ∀ n ∈ first :: more, n.isName = true)
    (free : ∀ u ∈ words, u.isWord first = false) :
    Writes words [.nonterminal entityName] (Text.join "." (first :: more))
      [.node (.phrase entityName) Cursor.start.loc
        ((first :: more).map fun n => .leaf (some NAME) n Cursor.start.loc)] := by
  refine of_part (isPart_entity first more free) (List.nil_subset _)
    (written_entity first more names) ?_
  rw [← treesOf_entity, treesOf, treesOf, List.append_nil]

/-- what is written for a symbol stands at the first place -/
theorem movedAll_first {s : Symbol} (h : Writes words [s] text ts) : Tree.movedAll Loc.first ts = ts := by
  obtain ⟨d, isPart, _, rfl⟩ := h.exists_part
  have same : d.map Token.unplaced = d := map_eq_self d fun t mem => by
    obtain ⟨kind, text, start⟩ := t
    obtain rfl := (isPart.printed _ mem).start
    rfl
  have moved := trees_map (f := Token.unplaced) (g := Loc.first) (fun _ => rfl) (fun _ => rfl) (fun _ => rfl) d
    isPart.valid (isPart.root ▸ isPart.part)
  rw [← moved, same]

/-! ## Series -/

/-- phrases of a kind with a comma between neighbours -/
theorem series {α : Type} {n : Nonterminal} {part : Symbol} (sep : Separates n COMMA part) {l : List α}
    {f : α → Text} {g : α → List Tree} (each : ∀ a ∈ l, Writes part.openingWords [part] (f a) (g a))
    (some : l ≠ []) : ∃ symbols ∈ ([[part], [part, .nonterminal n]] : List (List Symbol)),
      Writes part.openingWords symbols (Text.join ", " (l.map f)) (l.flatMap g) := by
  have parts : ∀ a ∈ l, ∃ d, IsPart part.openingWords part d ∧ Written d.tokens (f a) ∧ d.trees = g a :=
    fun a ha => (each a ha).exists_part
  choose! d isPart written trees using parts
  have isParts : ∀ e ∈ l.map d, IsPart part.openingWords part e := List.forall_mem_map.mpr isPart
  have others : ∀ a ∈ l, ∀ t ∈ (d a).tokens, t.kind ≠ .EQUAL := fun a ha t mem =>
    ((isPart a ha).printed t mem).kind.2
  obtain ⟨a, rest, rfl⟩ := List.exists_cons_of_ne_nil some
  refine ⟨_, roots_series sep isParts, Derivation.series n COMMA ((a :: rest).map d), rfl,
    isPart_series sep isParts, ?_, ?_, ?_⟩
  · have head : (Derivation.series n COMMA ((a :: rest).map d)).head? = d a := by
      cases rest <;> rfl
    rw [head]
    rintro _ ⟨⟩
    have here := isPart a List.mem_cons_self
    rwa [here.root]
  · obtain ⟨here, further⟩ := List.forall_mem_cons.mp written
    rw [List.map_cons, List.map_cons, tokens_series, Text.join_cons_flatMap, List.flatMap_map, List.flatMap_map]
    refine here.flatMap (P := (· ≠ .EQUAL)) (fun t mem => others a List.mem_cons_self t
      (List.mem_of_mem_getLast? mem)) (fun b hb => ?_) (fun b hb t mem => ?_) fun b _ k other => ?_
    · have isPartB := isPart b (List.mem_cons_of_mem _ hb)
      obtain ⟨token, tokens, e⟩ := List.exists_cons_of_ne_nil
        (tokens_ne_nil isPartB.valid (isPartB.root ▸ isPartB.part))
      have isComma : COMMA.Matches "," [] := .spelled rfl
      have writtenB := further b hb
      rw [e] at writtenB ⊢
      exact .word isComma writtenB
    · rcases List.mem_append.mp (List.mem_of_mem_getLast? mem) with mem | mem
      · obtain rfl := List.mem_singleton.mp mem
        exact nofun
      · exact others b (List.mem_cons_of_mem _ hb) t mem
    · exact (Text.apart_cons (by decide) _).not_begins other
  · rw [trees_series sep, List.flatMap_map]
    exact List.flatMap_congr trees

end Writes

/-! ## Parameters with a keyword in front -/

/-- the word that says who may see a parameter -/
theorem isPart_accessibility {k : Terminal} (access : k ∈ accessWords) (words : List Terminal) :
    IsPart words accessibility (phrase accessibility [sign k]) := by
  have each : ∀ k ∈ accessWords, [.terminal k] ∈ accessibility.rows ∧ k ≠ .NAME ∧ k ≠ .STRING ∧ k ≠ .EQUAL := by
    decide
  obtain ⟨isRow, other⟩ := each k access
  exact isPart_row isRow (List.forall_mem_singleton.mpr (isPart_sign other _))
    (by rintro _ ⟨⟩; exact isPart_sign other _)

/-- a parameter behind such a word: no keyword but some is read where its name comes -/
theorem isPart_markedParameter {k : Terminal} {name : Text} {ds : List Derivation} (access : k ∈ accessWords)
    (free : ∀ u ∈ [STATIC, CONSTRUCTOR], u.isWord name = false) (mem : ds.map root ∈ Symbol.optionals)
    (isParts : ∀ d ∈ ds, IsPart d.root.openingWords d.root d) :
    IsPart accessWords parameter
      (phrase parameter (phrase accessibility [sign k] :: word NAME name :: ds)) := by
  have all : ∀ symbols ∈ Symbol.optionals,
      ⟨parameter, accessibility :: .terminal NAME :: symbols⟩ ∈ separated ∧
        ∀ i ∈ List.range symbols.length,
          Production.FitsAt ⟨parameter, accessibility :: .terminal NAME :: symbols⟩ (i + 1) := by
    decide +kernel
  have known : ∀ k ∈ accessWords, (⟨⟨accessibility, [.terminal k]⟩, 1⟩, [STATIC, CONSTRUCTOR]) ∈ Dot.others := by
    decide
  obtain ⟨kept, fits⟩ := all _ mem
  have isFront := isPart_accessibility access
  have isParts : ∀ d ∈ word NAME name :: ds, IsPart d.root.openingWords d.root d := List.forall_mem_cons.mpr
    ⟨isPart_name (Writes.free_nil name), isParts⟩
  have behind : ∀ i ≥ 1, Production.FitsAt
      ⟨parameter, (phrase accessibility [sign k] :: word NAME name :: ds).map root⟩ i := by
    intro i le
    obtain ⟨j, rfl⟩ := Nat.exists_eq_add_of_le' le
    by_cases inside : j < (ds.map root).length
    · exact fits j (List.mem_range.mpr inside)
    · exact Production.fitsAt_of_length_le (Nat.add_le_add_right (Nat.le_of_not_lt inside) 2)
  refine isPart_of_unworded nofun kept (List.forall_mem_cons.mpr ⟨⟨_, _, isFront []⟩, fun d hd =>
    ⟨_, _, isParts d hd⟩⟩) fun dot _ => ⟨?_, ?_⟩
  · exact (isFront []).unworded dot fun begins => absurd begins (by decide +kernel)
  · refine unwordedAll_of_fits (i := 1) rfl behind (fun d hd => isParts d (List.mem_of_mem_tail hd)) ?_
    rintro _ ⟨⟩ _
    exact ⟨_, rfl, (Dot.checked.2 _ (known k access)).not_isWord free⟩

/-- a parameter whose name may be a keyword but for some, since one that says who may see the parameter is in
front of it -/
theorem Writes.marked {more : List Terminal} {symbols : List Symbol} {text : Text} {ts : List Tree}
    {k : Terminal} {spelling : String} {name : Text} (access : k ∈ accessWords)
    (spelled : k.spelling? = some spelling) (isName : name.isName = true)
    (free : ∀ u ∈ [STATIC, CONSTRUCTOR], u.isWord name = false)
    (mem : symbols ∈ Symbol.optionals)
    (h : Writes more symbols text ts) (apart : text.Apart) :
    Writes accessWords [.nonterminal parameter]
      (Text.ofString spelling ++ (Text.ofString " " ++ (name ++ text)))
      [.node (.phrase parameter) Cursor.start.loc
        ([.node (.phrase accessibility) Cursor.start.loc [.leaf (some k) spelling Cursor.start.loc]] ++
          .leaf (some NAME) name Cursor.start.loc :: ts)] := by
  obtain ⟨ds, rfl, isParts, -, written, rfl⟩ := h
  have isPart : IsPart accessWords parameter _ := isPart_markedParameter access free mem isParts
  have shows : ∀ k ∈ accessWords, k.isKept = true := by decide
  have trees : (Derivation.phrase accessibility [Derivation.sign k]).trees =
      [.node (.phrase accessibility) Cursor.start.loc [.leaf (some k) spelling Cursor.start.loc]] := by
    rw [(isPart_accessibility access []).trees, treesOf, treesOf, trees_kept spelled (shows k access)]
    rfl
  refine Writes.of_part isPart (List.Subset.refl _) ?_ ?_
  · rw [tokens_phrase, tokensOf, tokens_phrase, tokensOf_singleton, tokens_sign, spelled]
    have isName' : (⟨NAME, name, .start⟩ : Token).kind.Matches name [] := matches_name isName
    exact .word (.spelled spelled) (.lexeme isName' (apart.not_begins nofun) written)
  · rw [isPart.trees, treesOf, trees]
    rfl

end Typings
