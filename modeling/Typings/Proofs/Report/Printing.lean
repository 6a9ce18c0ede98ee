import Typings.Proofs.Model.WellFormed
import Typings.Proofs.Report.Refilling
import Typings.Proofs.Syntax.Phrasing
import Typings.Proofs.Syntax.Writing
import Typings.Proofs.Text.Quoting
/-!
# Printed imports and exports are read back

A file of imports and exports is printed with a line for each.  Each line is the text of a derivation, in
which no name is a keyword that may come in its place, and a module name is quoted so that it is decoded
to what it was.  The lines are read one after the other.

* `ModuleLink.Printable`     an import or export of names, and with any module name;
* `SourceFile.unmarked`      without the marks that are not printed;
* `SourceFile.ReadsTo`       the elements of a text, but for their places;
* `Writes.readsTo`           what is written for an element is read back;
* `ModuleLink.readsTo`       a printed line is read back;
* `SourceFile.read_render`   the main result.
-/

namespace Typings
open Terminal Nonterminal

/-! ## What is printed -/

/-- an import or export whose names are names; an import of a dotted name does not begin with `require` -/
inductive ModuleLink.Printable : ModuleLink → Prop
  | importAlias {loc : Loc} {name first : Text} {more : List Text} {exported : Bool}
      (isName : name.isName = true) (names : ∀ n ∈ first :: more, n.isName = true)
      (other : first ≠ "require") :
      Printable (.importAlias loc name (Text.join "." (first :: more)) exported)
  | importRequire {loc : Loc} {name source : Text} {exported : Bool} (isName : name.isName = true) :
      Printable (.importRequire loc name source exported)
  | exportAssign {loc : Loc} {entity : Text} (dotted : entity.IsDotted) :
      Printable (.exportAssign loc entity)
  | exportDefault {loc : Loc} {entity : Text} (dotted : entity.IsDotted) :
      Printable (.exportDefault loc entity)
  | exportList {loc : Loc} {bindings : List Binding} {source : Option Text}
      (names : ∀ b ∈ bindings, b.name.isName = true ∧ ∀ r ∈ b.renamed, r.isName = true) :
      Printable (.exportList loc bindings source)

/-- without the export mark of an import, and without the module of a list of exports -/
def ModuleLink.unmarked : ModuleLink → ModuleLink
  | .importAlias loc name entity _ => .importAlias loc name entity false
  | .importRequire loc name source _ => .importRequire loc name source false
  | .exportList loc bindings _ => .exportList loc bindings none
  | .importFrom loc source byDefault wholeName bindings =>
    .importFrom loc source byDefault wholeName bindings
  | .exportAssign loc entity => .exportAssign loc entity
  | .exportDefault loc entity => .exportDefault loc entity

def Element.unmarked : Element → Element
  | .link l => .link l.unmarked
  | e => e

def SourceFile.unmarked (f : SourceFile) : SourceFile := ⟨f.elements.map Element.unmarked⟩

/-! ## Texts and their elements -/

mutual

/-- what is moved to the first place may have been moved before -/
theorem Tree.moved_first (g : Loc → Loc) : ∀ t : Tree, (t.moved g).moved Loc.first = t.moved Loc.first
  | .leaf .. => rfl
  | .node label _ children => congrArg (Tree.node label _) (Tree.movedAll_first g children)

theorem Tree.movedAll_first (g : Loc → Loc) :
    ∀ ts : List Tree, movedAll Loc.first (movedAll g ts) = movedAll Loc.first ts
  | [] => rfl
  | t :: rest => congrArg₂ List.cons (Tree.moved_first g t) (Tree.movedAll_first g rest)

end

namespace SourceFile

/-- a text is read as some elements, when all places are the first one -/
structure ReadsTo (text : Text) (elements : List Element) (d : Derivation) : Prop where
  parsed : parse text = .ok d
  built : ∃ placed, Element.ofTrees d.elementTrees = .ok placed
  alike : Element.ofTrees (Tree.movedAll Loc.first d.elementTrees) = .ok elements

variable {s t : Text} {xs ys : List Element} {d d' : Derivation}

theorem ReadsTo.read (h : ReadsTo s xs d) : ∃ f, SourceFile.read s = .ok f ∧ f.unplaced = ⟨xs⟩ := by
  obtain ⟨parsed, ⟨placed, built⟩, alike⟩ := h
  have moved := Element.ofTrees_moved Loc.first _ _ built
  rw [alike] at moved
  exact ⟨⟨placed⟩, read_of_elements parsed built, congrArg SourceFile.mk (Except.ok.inj moved).symm⟩

/-- a derivation with a course whose names are no keywords where they stand is read from its text -/
theorem readsTo_of_written {states : List Nat} (leads : d.Leads states) (unworded : d.Unworded none)
    (written : Written d.tokens s) (decodable : ∀ t ∈ d.tokens, ¬ t.Undecodable)
    (built : Element.ofTrees d.elementTrees = .ok xs) :
    ∃ e, ReadsTo s (xs.map (Element.moved Loc.first)) e := by
  obtain ⟨e, parsed, alike⟩ := Derivation.parse_of_written leads unworded written
  have same : e.tokens.map Token.unplaced = d.tokens.map Token.unplaced := by
    rw [← Derivation.tokens_map, alike, Derivation.tokens_map]
  obtain ⟨f, _, done⟩ := read_of_decodable parsed (Token.decodable_of_unplaced same decodable)
  obtain ⟨_, parsed', placed⟩ := elements_of_read done
  rw [parsed] at parsed'
  cases parsed'
  have first : ∀ {d : Derivation}, d.Valid →
      (d.map Token.unplaced).elementTrees = Tree.movedAll Loc.first d.elementTrees :=
    fun valid => Derivation.elementTrees_map (f := Token.unplaced) (g := Loc.first)
      (fun _ => rfl) (fun _ => rfl) (fun _ => rfl) valid
  refine ⟨e, parsed, ⟨_, placed⟩, ?_⟩
  rw [← first (explains_of_parse parsed).valid, alike, first leads.valid]
  exact Element.ofTrees_moved Loc.first _ _ built

/-- a text in the next line is read behind the first one -/
theorem ReadsTo.nextLine (h : ReadsTo s xs d) (h' : ReadsTo t ys d') (apart : t.StartsApart) :
    ∃ e, ReadsTo (Text.nextLine s t) (xs ++ ys) e := by
  obtain ⟨placed, built⟩ := h.built
  obtain ⟨placed', built'⟩ := h'.built
  obtain ⟨e, parsed, trees⟩ := parse_nextLine h.parsed h'.parsed (apart d' h'.parsed)
  rw [Derivation.elementTrees_map (f := Token.down _ _) (g := Loc.down (s.lineFeeds + 1)) (fun _ => rfl)
    (fun _ => rfl) (fun _ => rfl) (explains_of_parse h'.parsed).valid] at trees
  refine ⟨e, parsed, ?_, ?_⟩
  · rw [trees]
    exact ⟨_, Element.ofTrees_append built (Element.ofTrees_moved _ _ _ built')⟩
  · rw [trees, Derivation.movedAll_append, Tree.movedAll_first]
    exact Element.ofTrees_append h.alike h'.alike

end SourceFile

/-! ## Lines -/

namespace Derivation

/-- a derivation of an element that is written as a line by itself -/
structure IsLine (d : Derivation) (text : Text) (element : Element) : Prop where
  isElement : ⟨Nonterminal.element, [d.root]⟩ ∈ productions
  valid : d.Valid
  parted : d.Parted .END
  unworded : d.Unworded none
  written : Written d.tokens text
  decodable : ∀ t ∈ d.tokens, ¬ t.Undecodable
  trees : ∃ tree, d.trees = [tree] ∧ Element.ofTrees [tree] = .ok [element]

/-- the file of an element is valid if the element is -/
theorem single_valid {d : Derivation} (isElement : ⟨Nonterminal.element, [d.root]⟩ ∈ productions)
    (valid : d.Valid) : (single d).Valid := by
  have keepsFile : ⟨file, [.nonterminal fileElements]⟩ ∈ productions := by with_unfolding_all decide
  have keepsElements : ⟨fileElements, [.nonterminal Nonterminal.element]⟩ ∈ productions := by with_unfolding_all decide
  exact .node keepsFile rfl (.cons (.node keepsElements rfl (.cons (.node isElement rfl
    (.cons valid .nil)) .nil)) .nil)

theorem single_parted {d : Derivation} (parted : d.Parted .END) : (single d).Parted .END := by
  have ends : Lookahead.closers.contains .END = true := by decide
  exact .node (.inr ends) (.cons (.node (.inr ends) (.cons (.node (.inr ends) (.cons parted (.nil _)))
    (.nil _))) (.nil _))

theorem tokens_single (d : Derivation) : (single d).tokens = d.tokens := by
  show ((d.tokens ++ []) ++ []) ++ [] = d.tokens
  simp only [List.append_nil]

/-- the file of an element shows as the element -/
theorem elementTrees_single {d : Derivation} {tree : Tree} (trees : d.trees = [tree]) :
    (single d).elementTrees = [tree] := by
  have alone : treesOf [d] = [tree] := by
    rw [treesOf, trees]
    rfl
  show (shown Nonterminal.element _ (treesOf [d]) ++ []) ++ [] = [tree]
  rw [alone]
  rfl

/-- a line is read as its element -/
theorem IsLine.readsTo {d : Derivation} {text : Text} {element : Element} (h : IsLine d text element) :
    ∃ e, SourceFile.ReadsTo text [element.moved Loc.first] e := by
  have tokens := tokens_single d
  obtain ⟨tree, trees, element⟩ := h.trees
  obtain ⟨_, leads⟩ := leads_of_parted (single_valid h.isElement h.valid) rfl (single_parted h.parted)
  exact SourceFile.readsTo_of_written leads ⟨⟨⟨h.unworded, trivial⟩, trivial⟩, trivial⟩ (tokens ▸ h.written)
    (tokens ▸ h.decodable) (elementTrees_single trees ▸ element)

/-- a phrase of tokens and of other parts behind them, with nothing left out but a separator at the end, is a
line if it shows as one element -/
theorem isLine_phrase {n : Nonterminal} {front : List Token} {tail : List Derivation} {text : Text}
    {children : List Tree} {element : Element} (isNode : n.shape = .node)
    (mem : ⟨n, (front.map leaf ++ tail).map root⟩ ∈ productions)
    (isElement : ⟨Nonterminal.element, [.nonterminal n]⟩ ∈ productions)
    (parts : ∀ d ∈ tail, ∃ words s, IsPart words s d)
    (unworded : UnwordedAll none ⟨n, (front.map leaf ++ tail).map root⟩ 0 (front.map leaf ++ tail))
    (written : Written (front ++ tokensOf tail) text) (decodable : ∀ t ∈ front, ¬ t.Undecodable)
    (start : (phrase n (front.map leaf ++ tail)).loc = Cursor.start.loc) (shows : treesOf tail = children)
    (reads : Element.ofNode? (.phrase n) Cursor.start.loc (treesOf (front.map leaf) ++ children) =
      .ok (some element)) : ∃ d, IsLine d text element := by
  have all : ∀ d ∈ front.map leaf ++ tail, d.Valid ∧ ∀ ahead, d.Parted ahead :=
    List.forall_mem_append.mpr ⟨List.forall_mem_map.mpr fun t _ => ⟨.leaf t, .leaf t⟩, fun d hd =>
      let ⟨_, _, isPart⟩ := parts d hd
      ⟨isPart.valid, isPart.parted⟩⟩
  have tokens : tokensOf (front.map leaf ++ tail) = front ++ tokensOf tail := by
    rw [tokensOf_append, tokensOf_eq_flatMap, List.flatMap_map]
    exact congrArg (· ++ _) (List.flatMap_singleton' front)
  have trees : (phrase n (front.map leaf ++ tail)).trees =
      [.node (.phrase n) Cursor.start.loc (treesOf (front.map leaf) ++ children)] := by
    rw [← start, ← shows, ← treesOf_append, phrase, Derivation.trees]
    unfold shown
    rw [isNode]
  refine ⟨phrase n (front.map leaf ++ tail), isElement,
    .node mem rfl ((allValid_iff _).mpr fun d hd => (all d hd).1),
    .node (.inr (by decide)) (allParted_of_forall (fun d hd => (all d hd).2) _), unworded, ?_, ?_, _, trees, ?_⟩
  · rw [tokens_phrase, tokens]
    exact written
  · rw [tokens_phrase, tokens, tokensOf_eq_flatMap]
    refine List.forall_mem_append.mpr ⟨decodable, fun t mem bad => ?_⟩
    obtain ⟨d, hd, mem⟩ := List.mem_flatMap.mp mem
    obtain ⟨_, _, isPart⟩ := parts d hd
    exact (isPart.printed t mem).kind.1 bad.1
  · rw [Element.ofTrees, reads]
    rfl

/-- tokens of other classes than string literals can be decoded -/
theorem decodable_of_noString {tokens : List Token} (h : ∀ t ∈ tokens, t.kind ≠ STRING) :
    ∀ t ∈ tokens, ¬ t.Undecodable := fun t mem bad => h t mem bad.1

end Derivation

/-- what is written for an element by itself is read back -/
theorem Writes.readsTo {words : List Terminal} {n : Nonterminal} {text : Text} {tree : Tree}
    {element : Element} (h : Writes words [.nonterminal n] text [tree])
    (isElement : ⟨Nonterminal.element, [.nonterminal n]⟩ ∈ productions)
    (other : (Symbol.nonterminal n).mayBeName = false) (reads : Element.ofTrees [tree] = .ok [element]) :
    ∃ d, SourceFile.ReadsTo text [element] d := by
  have unplaced := Element.ofTrees_moved Loc.first _ _ reads
  rw [h.movedAll_first, reads] at unplaced
  obtain ⟨d, isPart, written, trees⟩ := h.exists_part
  have line : Derivation.IsLine d text element :=
    { isElement := isPart.root ▸ isElement
      valid := isPart.valid
      parted := isPart.parted _
      unworded := isPart.unworded _ fun begins => absurd begins (by rw [other]; exact Bool.false_ne_true)
      written
      decodable := Derivation.decodable_of_noString fun t mem => (isPart.printed t mem).kind.1
      trees := ⟨tree, trees, reads⟩ }
  have all := line.readsTo
  rwa [← List.singleton_inj.mp (Except.ok.inj unplaced)] at all

/-- the bindings of a list are read from its trees -/
theorem Binding.ofTrees_trees (bs : List Binding) :
    ofTrees (bs.flatMap fun b => (Derivation.binding b).trees) = .ok bs := by
  induction bs with
  | nil => rfl
  | cons b bs ih =>
    obtain ⟨name, renamed⟩ := b
    have further : (ofTrees (bs.flatMap fun b => (Derivation.binding b).trees)).bind
        (fun bs => .ok (⟨name, renamed⟩ :: bs)) = .ok (⟨name, renamed⟩ :: bs) := by
      rw [ih]
      rfl
    rw [List.flatMap_cons]
    cases renamed <;> exact further

/-! ## The lines of imports and exports -/

namespace ModuleLink
open Typings.Derivation

theorem importAlias_isLine {name first : Text} {more : List Text} (isName : name.isName = true)
    (names : ∀ n ∈ first :: more, n.isName = true) (other : first ≠ "require") :
    ∃ d, IsLine d (Text.ofString "import " ++ name ++ Text.ofString " = " ++ Text.join "." (first :: more))
      (.link (.importAlias Cursor.start.loc name (Text.join "." (first :: more)) false)) := by
  have mem : ⟨Nonterminal.importAlias, [IMPORT, NAME, EQUAL, entityName]⟩ ∈ productions := by with_unfolding_all decide
  have behindImport : Dot.Admits ⟨⟨Nonterminal.importAlias, [IMPORT, NAME, EQUAL, entityName]⟩, 1⟩ [] :=
    Dot.checked.2 (_, _) (by decide)
  have behindEqual : Dot.Admits ⟨⟨Nonterminal.importAlias, [IMPORT, NAME, EQUAL, entityName]⟩, 3⟩ [REQUIRE] :=
    Dot.checked.2 (_, _) (by decide)
  have isPart : IsPart [REQUIRE] entityName (entity (first :: more)) :=
    isPart_entity first more (List.forall_mem_singleton.mpr (Terminal.isWord_eq_false rfl other))
  have written := written_entity first more names
  refine @isLine_phrase _ [⟨IMPORT, "import", .start⟩, ⟨NAME, name, .start⟩, ⟨EQUAL, "=", .start⟩]
    [entity (first :: more)] _ _ _ rfl mem (by with_unfolding_all decide) (List.forall_mem_singleton.mpr ⟨_, _, isPart⟩)
    ?_ ?_ (decodable_of_noString (by simp)) rfl (treesOf_entity first more) ?_
  · exact ⟨fun e => (nomatch e), fun _ => ⟨_, rfl, behindImport.not_isWord fun _ h => absurd h List.not_mem_nil⟩,
      fun e => (nomatch e), isPart.unworded _ fun _ => ⟨_, rfl, behindEqual⟩, trivial⟩
  · rw [tokensOf_singleton]
    rw [tokens_entity] at written ⊢
    simp only [List.append_assoc]
    exact .word (.spelled rfl) (.word (matches_name isName) (.word (.spelled rfl) written))
  · show Except.ok (some (Element.link (.importAlias _ _ (Tree.dotted _) _))) = _
    rw [Tree.dotted_names]
    rfl

theorem importRequire_isLine {name : Text} (source : Text) (isName : name.isName = true) :
    ∃ d, IsLine d (Text.ofString "import " ++ name ++ Text.ofString " = require(" ++ Quoted.encode source ++
        Text.ofString ")") (.link (.importRequire Cursor.start.loc name source false)) := by
  have mem : ⟨externalImport, [IMPORT, NAME, EQUAL, REQUIRE, LPAR, STRING, RPAR]⟩ ∈ productions := by
    with_unfolding_all decide
  have behindImport : Dot.Admits ⟨⟨externalImport, [IMPORT, NAME, EQUAL, REQUIRE, LPAR, STRING, RPAR]⟩, 1⟩ [] :=
    Dot.checked.2 (_, _) (by decide)
  refine @isLine_phrase _ [⟨IMPORT, "import", .start⟩, ⟨NAME, name, .start⟩, ⟨EQUAL, "=", .start⟩,
      ⟨REQUIRE, "require", .start⟩, ⟨LPAR, "(", .start⟩, ⟨STRING, Quoted.encode source, .start⟩,
      ⟨RPAR, ")", .start⟩] [] _ _ _ rfl mem (by with_unfolding_all decide) (fun _ h => absurd h List.not_mem_nil)
    ?_ ?_ ?_ rfl rfl ?_
  · exact ⟨fun e => (nomatch e), fun _ => ⟨_, rfl, behindImport.not_isWord fun _ h => absurd h List.not_mem_nil⟩,
      fun e => (nomatch e), fun e => (nomatch e), fun e => (nomatch e), fun e => (nomatch e),
      fun e => (nomatch e), trivial⟩
  · have closing : Written [⟨RPAR, ")", .start⟩] ")" := .one (.spelled rfl)
    have module : Written (⟨STRING, Quoted.encode source, .start⟩ :: _) _ :=
      .lexeme (Quoted.encode_matches source []) (Text.not_begins_cons rfl []) closing
    have opening : Written (⟨LPAR, "(", .start⟩ :: _) _ :=
      .lexeme (.spelled rfl) (fun ⟨_, _, goesOn⟩ => nomatch goesOn) module
    have require : Written (⟨REQUIRE, "require", .start⟩ :: _) _ :=
      .lexeme (.spelled rfl) (Text.not_begins_cons (by decide) _) opening
    simp only [List.append_assoc]
    exact .word (.spelled rfl) (.word (matches_name isName) (.word (.spelled rfl) require))
  · have decodes : ¬ Token.Undecodable ⟨STRING, Quoted.encode source, .start⟩ := by
      rintro ⟨_, fault, failed⟩
      rw [Literal.decode_encode] at failed
      cases failed
    simpa [Token.Undecodable] using decodes
  · show ((Tree.literal (Quoted.encode source) Cursor.start.loc).bind fun text =>
      .ok (some (ModuleLink.importRequire _ _ text _))).map (Option.map Element.link) = _
    rw [Tree.literal, Literal.decode_encode]
    rfl

/-- an export of a dotted name, behind a keyword or a mark -/
theorem exportEntity_isLine {n : Nonterminal} {mark : Terminal} {spelling : String} {link : Text → ModuleLink}
    (mem : ⟨n, [EXPORT, mark, entityName]⟩ ∈ productions ∧
      ⟨Nonterminal.element, [.nonterminal n]⟩ ∈ productions)
    (fits : n ∈ Nonterminal.fitting) (spelled : mark.spelling? = some spelling)
    (dropped : mark.isKept = false) (isNode : n.shape = .node)
    (reads : ∀ children, Element.ofNode? (.phrase n) Cursor.start.loc children =
      (Tree.entity (.phrase n) Cursor.start.loc children).map fun e => some (.link (link e)))
    {first : Text} {more : List Text} (names : ∀ n ∈ first :: more, n.isName = true) :
    ∃ d, IsLine d (Text.ofString "export " ++ (Text.ofString spelling ++ (Text.ofString " " ++
        Text.join "." (first :: more)))) (.link (link (Text.join "." (first :: more)))) := by
  have noName : mark ≠ NAME := by
    rintro rfl
    cases dropped
  have noMark : mark ≠ STRING := by
    rintro rfl
    cases dropped
  have none : trees (leaf ⟨mark, spelling, .start⟩) = [] :=
    if_neg (by rw [dropped]; exact Bool.false_ne_true)
  have isPart : IsPart [] entityName (entity (first :: more)) :=
    isPart_entity first more fun _ h => absurd h List.not_mem_nil
  have quiet := ((Dot.checked.1 _ mem.1 fits).at 1 (.nonterminal entityName) rfl (by decide +kernel)).2
  have written := written_entity first more names
  refine @isLine_phrase _ [⟨EXPORT, "export", .start⟩, ⟨mark, spelling, .start⟩] [entity (first :: more)]
    _ _ _ isNode mem.1 mem.2 (List.forall_mem_singleton.mpr ⟨_, _, isPart⟩) ?_ ?_
    (decodable_of_noString (by simp [noMark])) rfl (treesOf_entity first more) ?_
  · exact ⟨fun e => (nomatch e), fun e => absurd e noName,
      isPart.unworded _ fun _ => ⟨_, rfl, quiet⟩, trivial⟩
  · rw [tokensOf_singleton]
    rw [tokens_entity] at written ⊢
    exact .word (.spelled rfl) (.word (.spelled spelled) written)
  · rw [reads, List.map_cons, List.map_singleton, treesOf, treesOf, none]
    show Except.ok (some (Element.link (link (Tree.dotted _)))) = _
    rw [Tree.dotted_names]

theorem exportAssign_isLine {first : Text} {more : List Text}
    (names : ∀ n ∈ first :: more, n.isName = true) :
    ∃ d, IsLine d (Text.ofString "export = " ++ Text.join "." (first :: more))
      (.link (.exportAssign Cursor.start.loc (Text.join "." (first :: more)))) := by
  have reads : ∀ children, Element.ofNode? (.phrase exportAssignment) Cursor.start.loc children =
      (Tree.entity (.phrase exportAssignment) Cursor.start.loc children).map fun e =>
        some (.link (.exportAssign Cursor.start.loc e)) := by
    intro children
    simp only [Element.ofNode?, ModuleLink.ofNode?]
    cases Tree.entity (.phrase exportAssignment) Cursor.start.loc children <;> rfl
  have spelled : EQUAL.spelling? = some "=" := rfl
  exact exportEntity_isLine (by with_unfolding_all decide) (by decide) spelled rfl rfl reads names

theorem exportDefault_isLine {first : Text} {more : List Text}
    (names : ∀ n ∈ first :: more, n.isName = true) :
    ∃ d, IsLine d (Text.ofString "export default " ++ Text.join "." (first :: more))
      (.link (.exportDefault Cursor.start.loc (Text.join "." (first :: more)))) := by
  have reads : ∀ children, Element.ofNode? (.phrase .exportDefault) Cursor.start.loc children =
      (Tree.entity (.phrase .exportDefault) Cursor.start.loc children).map fun e =>
        some (.link (.exportDefault Cursor.start.loc e)) := by
    intro children
    simp only [Element.ofNode?, ModuleLink.ofNode?]
    cases Tree.entity (.phrase .exportDefault) Cursor.start.loc children <;> rfl
  have spelled : DEFAULT.spelling? = some "default" := rfl
  exact exportEntity_isLine (by with_unfolding_all decide) (by decide) spelled rfl rfl reads names

theorem exportList_isLine {bs : List Binding}
    (names : ∀ b ∈ bs, b.name.isName = true ∧ ∀ r ∈ b.renamed, r.isName = true) :
    ∃ d, IsLine d (Text.ofString "export \x7b " ++ Text.join ", " (bs.map Binding.render) ++
        Text.ofString " \x7d") (.link (.exportList Cursor.start.loc bs none)) := by
  have mem : ⟨Nonterminal.exportList, [EXPORT, namedBindings]⟩ ∈ productions := by with_unfolding_all decide
  have isPart := isPart_bindings bs []
  refine @isLine_phrase _ [⟨EXPORT, "export", .start⟩] [bindings bs] _ _ _ rfl mem (by with_unfolding_all decide)
    (List.forall_mem_singleton.mpr ⟨_, _, isPart⟩) ?_ ?_ (decodable_of_noString (by simp)) rfl
    (treesOf_bindings bs) ?_
  · refine ⟨fun e => (nomatch e), isPart.unworded _ fun begins => ?_, trivial⟩
    exact absurd begins (by decide +kernel)
  · rw [tokensOf_singleton]
    exact .word (.spelled rfl) (written_bindings bs names)
  · show ((Binding.ofTrees (bs.flatMap fun b => (binding b).trees)).bind fun bs =>
      .ok (some (ModuleLink.exportList _ bs _))).map (Option.map Element.link) = _
    rw [Binding.ofTrees_trees]
    rfl

/-- a printed line is read back, without the marks that are not printed -/
theorem readsTo {link : ModuleLink} (h : link.Printable) :
    ∃ e, SourceFile.ReadsTo link.render [.link (link.unmarked.moved Loc.first)] e := by
  cases h with
  | importAlias isName names other =>
    obtain ⟨_, line⟩ := importAlias_isLine isName names other
    exact line.readsTo
  | @importRequire _ name source _ isName =>
    obtain ⟨_, line⟩ := importRequire_isLine source isName
    exact line.readsTo
  | exportAssign dotted =>
    obtain ⟨_ | ⟨first, more⟩, some, names, rfl⟩ := dotted
    · exact absurd rfl some
    · obtain ⟨_, line⟩ := exportAssign_isLine names
      exact line.readsTo
  | exportDefault dotted =>
    obtain ⟨_ | ⟨first, more⟩, some, names, rfl⟩ := dotted
    · exact absurd rfl some
    · obtain ⟨_, line⟩ := exportDefault_isLine names
      exact line.readsTo
  | exportList names =>
    obtain ⟨_, line⟩ := exportList_isLine names
    exact line.readsTo

/-- every line begins with `import` or `export` and a space -/
theorem render_starts (link : ModuleLink) : ∃ kind ∈ Terminal.starters, ∃ spelling : String,
    kind.spelling? = some spelling ∧ ∃ rest : Text,
      link.render = Text.ofString spelling ++ (Text.ofString " " ++ rest) := by
  obtain ⟨rest, isImport | isExport⟩ : ∃ rest : Text, link.render = Text.ofString "import " ++ rest ∨
      link.render = Text.ofString "export " ++ rest := by
    cases link with
    | importAlias _ name entity =>
      exact ⟨name ++ (Text.ofString " = " ++ entity), .inl (by simp only [render, List.append_assoc])⟩
    | importRequire _ name source =>
      exact ⟨name ++ (Text.ofString " = require(" ++ (Quoted.encode source ++ Text.ofString ")")),
        .inl (by simp only [render, List.append_assoc])⟩
    | importFrom _ source => exact ⟨Text.ofString "from " ++ Quoted.encode source, .inl rfl⟩
    | exportAssign _ entity => exact ⟨Text.ofString "= " ++ entity, .inr rfl⟩
    | exportDefault _ entity => exact ⟨Text.ofString "default " ++ entity, .inr rfl⟩
    | exportList _ bindings =>
      exact ⟨Text.ofString "\x7b " ++ Text.join ", " (bindings.map Binding.render) ++ Text.ofString " \x7d",
        .inr rfl⟩
  · exact ⟨IMPORT, by decide, "import", rfl, rest, isImport⟩
  · exact ⟨EXPORT, by decide, "export", rfl, rest, isExport⟩

end ModuleLink

/-! ## Files -/

/-- no starter is spelled like the front of another one -/
theorem Terminal.starters_apart : ∀ k ∈ starters, ∀ s ∈ k.spelling?, ∀ k' ∈ starters, ∀ s' ∈ k'.spelling?,
    Text.ofString s <+: Text.ofString s' → Text.ofString s' = Text.ofString s := by
  decide

/-- a text starts apart if it begins with a starter and no part of a name behind it -/
theorem Text.startsApart_of_starter {kind : Terminal} {spelling : String} (starter : kind ∈ Terminal.starters)
    (spelled : kind.spelling? = some spelling) {rest : Text} (ends : ¬ rest.Begins CodePoint.isNamePart) :
    StartsApart (Text.ofString spelling ++ rest) := by
  intro d parsed u first
  obtain ⟨states, leads, scanned⟩ := leads_of_parse parsed
  have whole : kind.Matches (Text.ofString spelling) rest := .spelled spelled
  have gap := Pattern.gap_of_isGap (.nil (Text.ofString spelling ++ rest)) whole.ignored
  have isStarter : ∀ t ts, d.tokens = t :: ts → t.kind ∈ Terminal.starters := fun _ _ e => leads.starter e
  generalize d.tokens = tokens at scanned first isStarter
  cases scanned with
  | nil => cases first
  | @cons _ _ _ _ piece rest' kind' _ _ found _ =>
    cases first
    have starter' := isStarter _ _ rfl
    rw [List.nil_append] at gap
    rw [gap] at found ⊢
    obtain ⟨isToken, split⟩ := Token.matches_of_read? found
    obtain ⟨spelling', spelled', rfl⟩ := isToken.exists_spelling (Terminal.isKeyword_of_starter starter')
    have same : Text.ofString spelling' = Text.ofString spelling := by
      rcases List.prefix_or_prefix_of_prefix (split ▸ List.prefix_append (Text.ofString spelling') rest')
        (List.prefix_append (Text.ofString spelling) rest) with isPrefix | isPrefix
      · exact (Terminal.starters_apart _ starter' _ spelled' _ starter _ spelled isPrefix).symm
      · exact Terminal.starters_apart _ starter _ spelled _ starter' _ spelled' isPrefix
    rw [same] at split ⊢
    obtain rfl := List.append_cancel_left split
    show ¬ Text.Begins _ (List.drop (0 + _) _)
    rwa [Nat.zero_add, List.drop_left]

namespace SourceFile

theorem readsTo_nil : ∃ e, ReadsTo [] [] e := by
  have mem : ⟨file, []⟩ ∈ productions := by with_unfolding_all decide
  obtain ⟨_, leads⟩ := Derivation.leads_of_parted (d := .phrase file []) (.node mem rfl .nil) rfl
    (.node (.inr (by decide)) (.nil _))
  exact readsTo_of_written leads trivial .nil (fun _ h => absurd h List.not_mem_nil) rfl

/-- printed lines are read back one after the other -/
theorem readsTo_lines : ∀ {links : List ModuleLink}, (∀ l ∈ links, l.Printable) →
    ∃ e, ReadsTo (Text.join "\n" (links.map ModuleLink.render))
      (links.map fun l => .link (l.unmarked.moved Loc.first)) e
  | [], _ => readsTo_nil
  | [l], printable => by
    rw [List.map_singleton, Text.join_singleton]
    exact ModuleLink.readsTo (printable l List.mem_cons_self)
  | l :: next :: rest, printable => by
    obtain ⟨here, further⟩ := List.forall_mem_cons.mp printable
    obtain ⟨d, front⟩ := ModuleLink.readsTo here
    obtain ⟨d', behind⟩ := readsTo_lines further
    have apart : (Text.join "\n" ((next :: rest).map ModuleLink.render)).StartsApart := by
      obtain ⟨kind, starter, spelling, spelled, more, e⟩ := next.render_starts
      rw [List.map_cons, Text.join_cons_flatMap, e, List.append_assoc]
      exact Text.startsApart_of_starter starter spelled (Text.not_begins_cons (by decide) _)
    have line : Text.join "\n" ((l :: next :: rest).map ModuleLink.render) =
        Text.nextLine l.render (Text.join "\n" ((next :: rest).map ModuleLink.render)) := by
      rw [List.map_cons, Text.join_cons _ _ (List.map_eq_nil_iff.not.mpr (List.cons_ne_nil _ _)),
        List.append_assoc]
      rfl
    rw [line]
    exact front.nextLine behind apart

theorem exists_links : ∀ {es : List Element}, (∀ e ∈ es, ∃ l : ModuleLink, e = .link l ∧ l.Printable) →
    ∃ links : List ModuleLink, es = links.map .link ∧ ∀ l ∈ links, l.Printable
  | [], _ => ⟨[], rfl, fun _ h => absurd h List.not_mem_nil⟩
  | _ :: _, h => by
    obtain ⟨⟨l, rfl, here⟩, further⟩ := List.forall_mem_cons.mp h
    obtain ⟨links, rfl, printable⟩ := exists_links further
    exact ⟨l :: links, rfl, List.forall_mem_cons.mpr ⟨here, printable⟩⟩

/-- **A file of imports and exports between names is read back from what is printed of it, in other places
and without the marks that are not printed.  A module may have any name.** -/
theorem read_render {f : SourceFile} (links : ∀ e ∈ f.elements, ∃ l : ModuleLink, e = .link l ∧ l.Printable) :
    ∃ f', read f.render = .ok f' ∧ f'.unplaced = f.unmarked.unplaced := by
  obtain ⟨elements⟩ := f
  obtain ⟨ls, rfl, printable⟩ := exists_links links
  obtain ⟨d, readsTo⟩ := readsTo_lines printable
  have text : render ⟨ls.map .link⟩ = Text.join "\n" (ls.map ModuleLink.render) := by
    rw [render, List.flatMap_map]
    exact congrArg _ (List.flatMap_pure_eq_map _ _)
  rw [text]
  obtain ⟨f', done, same⟩ := readsTo.read
  refine ⟨f', done, same.trans ?_⟩
  rw [unmarked, unplaced, moved, List.map_map, List.map_map]
  rfl

/-- names that are keywords elsewhere, a module name of quotes, a backslash, a line feed, a zero and a
surrogate, and marks that are not printed -/
def keywordLinks : SourceFile := ⟨[
  .link (.importAlias ⟨3, 5⟩ "from" (Text.join "." ["as", "default"]) true),
  .link (.importRequire ⟨1, 1⟩ "require" (Text.ofString "\"'\\\n\x00" ++ [.surrogate ⟨0, by decide⟩]) true),
  .link (.exportDefault ⟨2, 1⟩ (Text.join "." ["default"])),
  .link (.exportList ⟨4, 1⟩ [⟨"a", some "as"⟩, ⟨"export", none⟩] (some "m"))]⟩

theorem read_render_keywordLinks :
    keywordLinks.render = Text.join "\n" [
      Text.ofString "import from = as.default",
      Text.ofString "import require = require('\"\\'\\\\\\n\\x00\\ud800')",
      Text.ofString "export default default",
      Text.ofString "export \x7b a as as, export \x7d"] ∧
    (∀ e ∈ keywordLinks.elements, ∃ l : ModuleLink, e = .link l ∧ l.Printable) ∧
    ∃ f', read keywordLinks.render = .ok f' ∧ f'.unplaced = keywordLinks.unmarked.unplaced := by
  have printable : ∀ e ∈ keywordLinks.elements, ∃ l : ModuleLink, e = .link l ∧ l.Printable := by
    simp only [keywordLinks, List.forall_mem_cons]
    refine ⟨⟨_, rfl, .importAlias (by decide) (by decide) (by decide)⟩, ⟨_, rfl, .importRequire (by decide)⟩,
      ⟨_, rfl, .exportDefault ⟨_, List.cons_ne_nil _ _, by decide, rfl⟩⟩, ⟨_, rfl, .exportList (by decide)⟩,
      fun _ h => absurd h List.not_mem_nil⟩
  exact ⟨by decide +kernel, printable, read_render printable⟩

end SourceFile

end Typings
