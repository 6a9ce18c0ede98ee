import Typings.Proofs.Declaration.TypeTexts
import Mathlib.Data.List.Chain
import Typings.Proofs.Declaration.MemberTexts
import Typings.Proofs.Grammar.FollowingWords
/-!
# Lines of properties

An interface can have its properties one a line, with or without a separator behind each.  Without one, the
name of a property is looked for in the state behind the type in front of it, where more keywords may come than
behind a separator.

* `PlainType`, `PlainProperty`     a property with a type of one word;
* `PlainProperty.Joins`            a property that can stand in the next line;
* `PlainProperty.lines`            the text of an interface with a property in each line;
* `Derivation.IsRow`               the derivation of such lines;
* `Derivation.exists_row`          properties that can stand behind each other have one.
-/

namespace Typings
open Terminal Nonterminal

/-- a type of one word: a predefined type, or a name that is no keyword -/
inductive PlainType
  | predefined (word : Terminal) (isWord : word ∈ predefinedWords)
  | reference (name : Text) (isName : name.isName = true) (free : ∀ u : Terminal, u.isWord name = false)

namespace PlainType

def text : PlainType → Text
  | predefined word _ => Text.ofString (word.spelling?.getD "")
  | reference name .. => name

/-- the type, at the first place -/
def expr : PlainType → TypeExpr
  | predefined word _ => .predefined Cursor.start.loc (Text.ofString (word.spelling?.getD ""))
  | reference name .. => .reference Cursor.start.loc name []

/-- the keywords that may come behind the type where another one of its kind stands, `new` apart -/
def followers : PlainType → List Terminal
  | predefined .. => behindPredefined
  | reference .. => behindReference

def derivation : PlainType → Derivation
  | predefined word _ => .phrase predefinedType [.sign word]
  | reference name .. => .phrase typeReference [.entity [name]]

/-- the derivation of the type as any type -/
def typed (t : PlainType) : Derivation := .phrase typeExpr [.phrase primaryType [t.derivation]]

/-- the last token of the type -/
def lastKind : PlainType → Terminal
  | predefined word _ => word
  | reference .. => NAME

/-- the production of the last token -/
def lastProduction : PlainType → Production
  | predefined word _ => ⟨predefinedType, [.terminal word]⟩
  | reference .. => ⟨entityName, [.terminal NAME]⟩

end PlainType

/-- a property of any name but `new`, with or without a question mark, and a type of one word -/
structure PlainProperty where
  name : Text
  isName : name.isName = true
  other : name ≠ "new"
  optional : Bool
  type : PlainType

namespace PlainProperty

def text (p : PlainProperty) : Text :=
  p.name ++ Text.when p.optional "?" ++ Text.ofString ": " ++ p.type.text

/-- the property as a member that stands at the first place, like its type -/
def member (p : PlainProperty) : TypeMember :=
  .property Cursor.start.loc p.name (some p.type.expr) p.optional

/-- a property can stand in the next line: its name is none of the keywords that may come there -/
def Joins (p q : PlainProperty) : Prop := ∀ u ∈ p.type.followers, u.isWord q.name = false

instance (p q : PlainProperty) : Decidable (p.Joins q) := inferInstanceAs (Decidable (∀ u ∈ p.type.followers, _))

/-- an interface with the properties one a line, with nothing or a semicolon behind each -/
def lines (marked : Bool) (ps : List PlainProperty) : Text :=
  Text.ofString "interface I \x7b\n" ++ Text.join "\n" (ps.map fun p => p.text ++ Text.when marked ";") ++
    Text.ofString "\n\x7d"

/-- the derivation of the name -/
def named (p : PlainProperty) : Derivation := .phrase propertyName [.word NAME p.name]

/-- the derivation of the colon and the type -/
def ascribed (p : PlainProperty) : Derivation := .phrase ascription [.sign COLON, p.type.typed]

/-- the parts of the property -/
def parts (p : PlainProperty) : List Derivation :=
  if p.optional then [p.named, .sign QMARK, p.ascribed] else [p.named, p.ascribed]

def derivation (p : PlainProperty) : Derivation := .phrase typeMember [.phrase propertySignature p.parts]

/-- the dot behind a line -/
def dotBehind (marked : Bool) (p : PlainProperty) : Dot :=
  if marked then Derivation.separatorDot else ⟨p.type.lastProduction, 1⟩

/-- the keywords that may come behind a line -/
def wordsBehind (marked : Bool) (p : PlainProperty) : List Terminal :=
  if marked then [NEW] else NEW :: p.type.followers

end PlainProperty

/-! ## What is checked -/

/-- the productions of a property with a type of one word, without the token of the type -/
def Production.ofProperties : List Production := [
  ⟨typeMember, [.nonterminal propertySignature]⟩, ⟨propertySignature, [propertyName, ascription]⟩,
  ⟨propertySignature, [propertyName, QMARK, ascription]⟩, ⟨ascription, [COLON, typeExpr]⟩,
  ⟨typeExpr, [.nonterminal primaryType]⟩, ⟨primaryType, [.nonterminal predefinedType]⟩,
  ⟨primaryType, [.nonterminal typeReference]⟩, ⟨typeReference, [.nonterminal entityName]⟩]

/-- the productions of the tokens that are a type of one word -/
def Production.ofWords : List Production :=
  ⟨entityName, [.terminal NAME]⟩ :: predefinedWords.map fun t => ⟨predefinedType, [.terminal t]⟩

/-- the productions of rows of members -/
def Production.ofRows : List Production := [
  ⟨objectMembers, [.nonterminal typeMember]⟩, ⟨objectMembers, [typeMember, memberSeparator]⟩,
  ⟨objectMembers, [objectMembers, typeMember]⟩, ⟨objectMembers, [objectMembers, typeMember, memberSeparator]⟩,
  ⟨memberSeparator, [.terminal SEMICOLON]⟩]

/-- the productions around the members of an interface -/
def Production.aroundRows : List Production := [
  ⟨objectType, [LBRACE, objectMembers, RBRACE]⟩, ⟨objectType, [LBRACE, RBRACE]⟩,
  ⟨interfaceDeclaration, [INTERFACE, NAME, objectType]⟩, ⟨interfaceElement, [.nonterminal interfaceDeclaration]⟩,
  ⟨Nonterminal.element, [.nonterminal interfaceElement]⟩, ⟨fileElements, [.nonterminal Nonterminal.element]⟩,
  ⟨file, [.nonterminal fileElements]⟩]

/-- what comes behind a property -/
def Terminal.behindProperty : List Terminal := [NAME, SEMICOLON, RBRACE]

/-- what comes behind a line -/
def Terminal.behindLine : List Terminal := [NAME, RBRACE]

/-- phrases end where they should, none but some keywords come behind a type, and none of those is read in the
state behind lines, or at the end of what a brace follows -/
theorem Production.lines_checked :
    (∀ p ∈ ofProperties ++ ofWords, ∀ t ∈ behindProperty, p.EndsBefore t) ∧
    (∀ t ∈ [QMARK, COLON], EndsBefore ⟨propertyName, [.terminal NAME]⟩ t) ∧
    (∀ p ∈ ofRows, p ∈ productions ∧ ∀ t ∈ behindLine, p.EndsBefore t) ∧
    (∀ p ∈ aroundRows, p ∈ productions ∧ p.EndsBefore END) ∧
    (∀ p ∈ ofWords, p.Alone) ∧
    Dot.Admits ⟨⟨entityName, [.terminal NAME]⟩, 1⟩ (NEW :: behindReference) ∧
    (∀ t ∈ predefinedWords, Dot.Admits ⟨⟨predefinedType, [.terminal t]⟩, 1⟩ (NEW :: behindPredefined)) ∧
    (∀ u ∈ behindReference, Dot.mayRead ⟨⟨objectType, [LBRACE, objectMembers, RBRACE]⟩, 2⟩ u = false) ∧
    ∀ p ∈ productions, (Lookahead.follow p.lhs).contains RBRACE = true → ∀ u ∈ behindReference, p.EndsBefore u := by
  decide +kernel

/-- rows of members end in front of what comes behind a line -/
theorem Production.ends_row {p : Production} (mem : p ∈ ofRows) :
    p ∈ productions ∧ ∀ t ∈ behindLine, p.EndsBefore t :=
  lines_checked.2.2.1 p mem

/-- what is around them ends at the end of the text -/
theorem Production.ends_around {p : Production} (mem : p ∈ aroundRows) : p ∈ productions ∧ p.EndsBefore END :=
  lines_checked.2.2.2.1 p mem

/-- the words for predefined types are keywords that show -/
theorem Terminal.predefinedWords_shown : ∀ w ∈ predefinedWords,
    (w ≠ NAME ∧ w ≠ STRING ∧ w ≠ EQUAL) ∧ w.isKept = true ∧ w.spelling? ≠ none := by
  decide

/-! ## Properties -/

namespace Derivation

/-- a phrase of one part that stands behind any keywords -/
theorem isPart_of_one {n : Nonterminal} {s : Symbol} {d : Derivation} (mem : [s] ∈ n.rows)
    (h : ∀ words, IsPart words s d) (words : List Terminal) : IsPart words n (phrase n [d]) := by
  obtain rfl := (h []).root
  exact isPart_row mem (List.forall_mem_singleton.mpr (h _)) (by rintro _ ⟨⟩; exact h words)

end Derivation

namespace PlainType
open Typings.Derivation

theorem isPart_typed (t : PlainType) : ∀ words, IsPart words typeExpr t.typed := by
  have inner : ∃ s, [s] ∈ primaryType.rows ∧ ∀ words, IsPart words s t.derivation := by
    cases t with
    | predefined word isWord =>
      have other := (predefinedWords_shown word isWord).1
      exact ⟨_, by decide, isPart_of_one (List.mem_map_of_mem isWord) (isPart_sign other)⟩
    | reference name isName free =>
      exact ⟨typeReference, by decide, isPart_of_one (by decide) fun words => isPart_entity name [] fun u _ => free u⟩
  obtain ⟨s, mem, inner⟩ := inner
  exact isPart_of_one (by decide) (isPart_of_one mem inner)

theorem lastProduction_mem (t : PlainType) : t.lastProduction ∈ Production.ofWords := by
  cases t with
  | predefined word isWord => exact List.mem_cons_of_mem _ (List.mem_map_of_mem isWord)
  | reference => exact List.mem_cons_self

theorem admits (t : PlainType) : Dot.Admits ⟨t.lastProduction, 1⟩ (NEW :: t.followers) := by
  obtain ⟨-, -, -, -, -, reference, predefined, -⟩ := Production.lines_checked
  cases t with
  | predefined word isWord => exact predefined word isWord
  | reference => exact reference

theorem followers_subset (t : PlainType) : t.followers ⊆ behindReference := by
  cases t with
  | predefined => exact List.subset_cons_self _ _
  | reference => exact List.Subset.refl _

/-- a keyword that comes behind the type has an action in the state behind it -/
theorem acts_behind (t : PlainType) {u : Terminal} (mem : u ∈ t.followers) {state : Nat}
    (h : Dot.Behind ⟨t.lastProduction, 1⟩ state) : Automaton.action state u ≠ none := by
  obtain ⟨before, first, i, s, e, item, rhs, step⟩ := h
  obtain rfl : i = 0 := (Nat.succ.inj e).symm
  obtain ⟨-, -, -, -, alone, -⟩ := Production.lines_checked
  have alone := alone _ t.lastProduction_mem
  cases t with
  | predefined word =>
    cases rhs
    exact (Automaton.comes_behind_predefined u mem).acts alone nofun rfl item step
  | reference =>
    cases rhs
    exact (Automaton.comes_behind_reference u mem).acts alone nofun rfl item step

/-- the type ends in front of what comes behind a property -/
theorem ended_typed (t : PlainType) {ahead : Terminal} (mem : ahead ∈ behindProperty) : t.typed.Ended ahead := by
  have ends := fun p isProduction => Production.lines_checked.1 p isProduction ahead mem
  have last := ends _ (List.mem_append_right _ t.lastProduction_mem)
  refine .node (ends ⟨typeExpr, [.nonterminal primaryType]⟩ (by decide)) (.cons ?_ (.nil _))
  cases t with
  | predefined =>
    exact .node (ends ⟨primaryType, [.nonterminal predefinedType]⟩ (by decide)) (.cons
      (.node last (.cons (.leaf _ _) (.nil _))) (.nil _))
  | reference =>
    exact .node (ends ⟨primaryType, [.nonterminal typeReference]⟩ (by decide)) (.cons
      (.node (ends ⟨typeReference, [.nonterminal entityName]⟩ (by decide)) (.cons
        (.node last (.cons (.leaf _ _) (.nil _))) (.nil _))) (.nil _))

/-- the type is one token -/
theorem isToken (t : PlainType) : t.lastKind.Matches t.text [] ∧ t.lastKind ≠ EQUAL := by
  cases t with
  | predefined word isWord =>
    obtain ⟨other, -, spelled⟩ := predefinedWords_shown word isWord
    exact ⟨matches_spelling spelled, other.2.2⟩
  | reference name isName => exact ⟨matches_name isName, nofun⟩

/-- the tree of the type is read as it -/
theorem exists_tree (t : PlainType) : ∃ label cs, t.typed.trees = [.node label Cursor.start.loc cs] ∧
    TypeExpr.ofTree (.node label Cursor.start.loc cs) = .ok t.expr := by
  cases t with
  | predefined word isWord =>
    obtain ⟨-, isKept, spelled⟩ := predefinedWords_shown word isWord
    obtain ⟨spelling, spelled⟩ := Option.ne_none_iff_exists'.mp spelled
    refine ⟨.phrase predefinedType, [.leaf (some word) spelling Cursor.start.loc], ?_, ?_⟩
    · show [Tree.node _ _ (treesOf [sign word])] = _
      rw [treesOf, trees_kept spelled isKept]
      rfl
    · rw [TypeExpr.ofTree, expr, spelled]
      rfl
  | reference name =>
    refine ⟨.phrase typeReference, treesOf [entity [name]], rfl, ?_⟩
    rw [TypeExpr.ofTree, treesOf_entity, Tree.entity_names, TypeExpr.argumentsIn, if_neg (by decide),
      TypeExpr.argumentsIn, Text.join_singleton]
    rfl

end PlainType

namespace PlainProperty
open Typings.Derivation
variable (p : PlainProperty)

theorem isPart_named {words : List Terminal} (free : ∀ u ∈ words, u.isWord p.name = false) :
    IsPart words propertyName p.named := by
  have row : ([NAME] : List Symbol) ∈ propertyName.rows := by decide
  exact isPart_row row (List.forall_mem_singleton.mpr (isPart_name (Writes.free_nil _)))
    (by rintro _ ⟨⟩; exact isPart_name free)

theorem isPart_ascribed (words : List Terminal) : IsPart words ascription p.ascribed := by
  have row : ([COLON, typeExpr] : List Symbol) ∈ ascription.rows := by decide
  have isColon : ∀ words, IsPart words COLON (sign COLON) := isPart_sign (by decide)
  exact isPart_row row (List.forall_mem_cons.mpr ⟨isColon _, List.forall_mem_singleton.mpr (p.type.isPart_typed _)⟩)
    (by rintro _ ⟨⟩; exact isColon words)

theorem isPart_signature {words : List Terminal} (free : ∀ u ∈ words, u.isWord p.name = false) :
    IsPart words propertySignature (phrase propertySignature p.parts) := by
  have plain : ([propertyName, ascription] : List Symbol) ∈ propertySignature.rows := by decide
  have marked : ([propertyName, QMARK, ascription] : List Symbol) ∈ propertySignature.rows := by decide
  have isName : IsPart [] propertyName p.named := p.isPart_named (Writes.free_nil _)
  have first := p.isPart_named free
  rw [parts]
  cases p.optional with
  | false =>
    exact isPart_row plain (List.forall_mem_cons.mpr ⟨isName, List.forall_mem_singleton.mpr (p.isPart_ascribed _)⟩)
      (by rintro _ ⟨⟩; exact first)
  | true =>
    exact isPart_row marked (List.forall_mem_cons.mpr ⟨isName, List.forall_mem_cons.mpr
      ⟨isPart_sign (by decide) _, List.forall_mem_singleton.mpr (p.isPart_ascribed _)⟩⟩) (by rintro _ ⟨⟩; exact first)

theorem isPart_derivation {words : List Terminal} (free : ∀ u ∈ words, u.isWord p.name = false) :
    IsPart words typeMember p.derivation := by
  have row : ([propertySignature] : List Symbol) ∈ typeMember.rows := by decide
  exact isPart_row row (List.forall_mem_singleton.mpr (p.isPart_signature (Writes.free_nil _)))
    (by rintro _ ⟨⟩; exact p.isPart_signature free)

/-- a property ends in front of what comes behind it -/
theorem ended_derivation {ahead : Terminal} (mem : ahead ∈ behindProperty) : p.derivation.Ended ahead := by
  obtain ⟨ends, behindName, -⟩ := Production.lines_checked
  have ends := fun p isProduction => ends p (List.mem_append_left _ isProduction) ahead mem
  have isName : ∀ t ∈ [QMARK, COLON], p.named.Ended t := fun t mem =>
    .node (behindName t mem) (.cons (.leaf _ _) (.nil _))
  have typed : p.ascribed.Ended ahead :=
    .node (ends ⟨ascription, [COLON, typeExpr]⟩ (by decide)) (.cons (.leaf _ _)
      (.cons (p.type.ended_typed mem) (.nil _)))
  refine .node (ends ⟨typeMember, [.nonterminal propertySignature]⟩ (by decide)) (.cons ?_ (.nil _))
  rw [parts]
  cases p.optional with
  | false =>
    exact .node (ends ⟨propertySignature, [propertyName, ascription]⟩ (by decide)) (.cons (isName COLON (by decide))
      (.cons typed (.nil _)))
  | true =>
    exact .node (ends ⟨propertySignature, [propertyName, QMARK, ascription]⟩ (by decide)) (.cons
      (isName QMARK (by decide)) (.cons (.leaf _ _) (.cons typed (.nil _))))

/-- the dot behind the property -/
theorem dotBehind_derivation (q : Production) (i : Nat) :
    p.derivation.dotBehind q i = some ⟨p.type.lastProduction, 1⟩ := by
  have typed : ∀ q i, p.ascribed.dotBehind q i = some ⟨p.type.lastProduction, 1⟩ := by
    intro q i
    rw [ascribed]
    cases p.type <;> rfl
  show dotBehindAll ⟨propertySignature, p.parts.map root⟩ 0 p.parts = _
  generalize (⟨propertySignature, p.parts.map root⟩ : Production) = signature
  rw [parts]
  cases p.optional with
  | false => exact typed signature 1
  | true => exact typed signature 2

/-- the tokens of the property, with its name as a token of a class -/
def tokens (kind : Terminal) (p : PlainProperty) : List Token :=
  ⟨kind, p.name, .start⟩ :: ((if p.optional then [⟨QMARK, "?", .start⟩] else []) ++
    [⟨COLON, ":", .start⟩, ⟨p.type.lastKind, p.type.text, .start⟩])

theorem tokens_derivation : p.derivation.tokens = p.tokens NAME := by
  have last : p.type.typed.tokens = [⟨p.type.lastKind, p.type.text, .start⟩] := by
    cases p.type <;> rfl
  have typed : p.ascribed.tokens = [⟨COLON, ":", .start⟩, ⟨p.type.lastKind, p.type.text, .start⟩] := by
    rw [ascribed, tokens_phrase, tokensOf, tokensOf_singleton, last]
    rfl
  rw [derivation, tokens_phrase, tokensOf_singleton, tokens_phrase, parts, tokens]
  cases p.optional with
  | false =>
    rw [if_neg Bool.false_ne_true, tokensOf, tokensOf_singleton, typed]
    rfl
  | true =>
    rw [if_pos rfl, tokensOf, tokensOf, tokensOf_singleton, typed]
    rfl

/-- the trees of the property are read as it -/
theorem readsAs_trees : Tree.ReadsAs TypeMember.ofTrees p.derivation.trees p.member := by
  intro rest l further
  obtain ⟨label, cs, trees, reads⟩ := p.type.exists_tree
  have typed : p.ascribed.trees = [.node (.phrase ascription) Cursor.start.loc [.node label Cursor.start.loc cs]] := by
    show [Tree.node _ _ (treesOf [sign COLON, p.type.typed])] = _
    rw [treesOf, treesOf, trees, trees_sign rfl]
    rfl
  have inner : treesOf p.parts = .leaf (some NAME) p.name Cursor.start.loc :: (Tree.question p.optional ++
      [.node (.phrase ascription) Cursor.start.loc [.node label Cursor.start.loc cs]]) := by
    rw [parts]
    cases p.optional with
    | false =>
      rw [if_neg Bool.false_ne_true, treesOf, treesOf, typed]
      rfl
    | true =>
      rw [if_pos rfl, treesOf, treesOf, treesOf, typed]
      rfl
  have whole : p.derivation.trees = [.node (.phrase propertySignature) Cursor.start.loc (treesOf p.parts)] := by
    have start : (phrase propertySignature p.parts).loc = Cursor.start.loc :=
      (p.isPart_signature (Writes.free_nil _)).loc
    rw [← start]
    rfl
  have ascribes : TypeExpr.Ascribes [.node (.phrase ascription) Cursor.start.loc [.node label Cursor.start.loc cs]]
      (some p.type.expr) :=
    .inr ⟨_, _, rfl, by rw [TypeExpr.firstIn?, reads], rfl⟩
  rw [whole, inner, List.singleton_append, TypeMember.ofTrees, TypeMember.ofTree_property (.inl rfl) ascribes, further]
  rfl

/-! ## Lines -/

/-- the parts of a line -/
def line (marked : Bool) (p : PlainProperty) : List Derivation :=
  p.derivation :: if marked then [separator] else []

/-- the tokens of a line, with the name of the property as a token of a class -/
def lineTokens (marked : Bool) (kind : Terminal) (p : PlainProperty) : List Token :=
  p.tokens kind ++ if marked then [⟨SEMICOLON, ";", .start⟩] else []

section
variable (marked : Bool)

theorem admits_behind : (p.dotBehind marked).Admits (p.wordsBehind marked) := by
  cases marked with
  | true => exact separatorDot_admits
  | false => exact p.type.admits

theorem line_mem : ⟨objectMembers, (p.line marked).map root⟩ ∈ Production.ofRows ∧
    ⟨objectMembers, .nonterminal objectMembers :: (p.line marked).map root⟩ ∈ Production.ofRows := by
  have mem : (∀ row ∈ ([[typeMember], [typeMember, memberSeparator]] : List (List Symbol)),
      ⟨objectMembers, row⟩ ∈ Production.ofRows ∧
        ⟨objectMembers, .nonterminal objectMembers :: row⟩ ∈ Production.ofRows) := by decide
  cases marked with
  | false => exact mem [.nonterminal typeMember] (by decide)
  | true => exact mem [typeMember, memberSeparator] (by decide)

theorem line_valid : AllValid (p.line marked) := by
  have valid := (p.isPart_derivation (Writes.free_nil _)).valid
  cases marked with
  | false => exact .cons valid .nil
  | true => exact .cons valid (.cons (isPart_separator []).valid .nil)

theorem line_ended {ahead : Terminal} (mem : ahead ∈ behindLine) : AllEnded (p.line marked) ahead := by
  cases marked with
  | false => exact .cons (p.ended_derivation ((by decide : ∀ t ∈ behindLine, t ∈ behindProperty) _ mem)) (.nil _)
  | true =>
    have isMark : ⟨memberSeparator, [.terminal SEMICOLON]⟩ ∈ Production.ofRows := by decide
    have mark := (Production.ends_row isMark).2 ahead mem
    exact .cons (p.ended_derivation (show SEMICOLON ∈ behindProperty by decide))
      (.cons (.node mark (.cons (.leaf _ _) (.nil _))) (.nil _))

theorem dotBehind_line (q : Production) (i : Nat) : dotBehindAll q i (p.line marked) = some (p.dotBehind marked) := by
  cases marked with
  | false => exact p.dotBehind_derivation q i
  | true => rfl

theorem tokens_line : tokensOf (p.line marked) = p.lineTokens marked NAME := by
  rw [line, tokensOf, tokens_derivation, lineTokens]
  cases marked <;> rfl

theorem lineTokens_ne_string : ∀ t ∈ p.lineTokens marked NAME, t.kind ≠ STRING := by
  refine List.forall_mem_append.mpr ⟨fun t mem => ?_, by cases marked <;> decide⟩
  rw [← tokens_derivation] at mem
  exact ((p.isPart_derivation (Writes.free_nil _)).printed t mem).kind.1

theorem trees_line : treesOf (p.line marked) = p.derivation.trees := by
  rw [line, treesOf]
  cases marked <;> exact List.append_nil _

/-- a line begins with a name -/
theorem firstKind_line (ahead : Terminal) : firstKind (p.line marked) ahead = NAME := by
  rw [firstKind, tokens_line]
  rfl

/-- where none but some keywords come in front of it, no name in a line is a keyword -/
theorem line_unworded {words : List Terminal} (free : ∀ u ∈ words, u.isWord p.name = false) {dot : Dot}
    (admits : dot.Admits words) (q : Production) (i : Nat) : UnwordedAll (some dot) q i (p.line marked) := by
  have here := (p.isPart_derivation free).unworded (some dot) fun _ => ⟨dot, rfl, admits⟩
  cases marked with
  | false => exact ⟨here, trivial⟩
  | true =>
    have other := Bool.eq_false_iff.mp memberSeparator_mayBeName
    exact ⟨here, (isPart_separator []).unworded _ fun begins => absurd begins other, trivial⟩

end

end PlainProperty

namespace Derivation

/-- the derivation of lines of properties -/
structure IsRow (marked : Bool) (ps : List PlainProperty) (m : Derivation) : Prop where
  root : m.root = .nonterminal objectMembers
  valid : m.Valid
  ended : ∀ t ∈ behindLine, m.Ended t
  behind : ∀ p ∈ ps.getLast?, ∀ q i, m.dotBehind q i = some (p.dotBehind marked)
  unworded : ∀ dot : Dot, dot.Admits [NEW] → m.Unworded (some dot)
  tokens : m.tokens = ps.flatMap (PlainProperty.lineTokens marked NAME)
  trees : m.trees = ps.flatMap fun p => p.derivation.trees

theorem free_new (p : PlainProperty) : ∀ u ∈ [NEW], u.isWord p.name = false :=
  List.forall_mem_singleton.mpr (Terminal.isWord_eq_false rfl p.other)

/-- one line -/
theorem isRow_one (marked : Bool) (p : PlainProperty) : IsRow marked [p] (phrase objectMembers (p.line marked)) where
  root := rfl
  valid := .node (Production.ends_row (p.line_mem marked).1).1 rfl (p.line_valid marked)
  ended t mem := .node ((Production.ends_row (p.line_mem marked).1).2 t mem) (p.line_ended marked mem)
  behind := by
    rintro _ ⟨⟩ q i
    exact p.dotBehind_line marked _ 0
  unworded dot admits := p.line_unworded marked (free_new p) admits _ 0
  tokens := by rw [tokens_phrase, p.tokens_line, List.flatMap_singleton]
  trees := by rw [trees_spliced rfl, p.trees_line, List.flatMap_singleton]

/-- one more line, with a property of a name that is no keyword there -/
theorem IsRow.more {marked : Bool} {ps : List PlainProperty} {m : Derivation} {last p : PlainProperty}
    (h : IsRow marked ps m) (isLast : ps.getLast? = some last)
    (free : ∀ u ∈ last.wordsBehind marked, u.isWord p.name = false) :
    IsRow marked (ps ++ [p]) (phrase objectMembers (m :: p.line marked)) := by
  have mem := (p.line_mem marked).2
  rw [← h.root, ← List.map_cons] at mem
  obtain ⟨isProduction, ends⟩ := Production.ends_row mem
  exact {
    root := rfl
    valid := .node isProduction rfl (.cons h.valid (p.line_valid marked))
    ended := fun t mem => by
      refine .node (ends t mem) (.cons ?_ (p.line_ended marked mem))
      rw [p.firstKind_line]
      exact h.ended NAME (by decide)
    behind := by
      rw [List.getLast?_concat]
      rintro _ ⟨⟩ q i
      exact p.dotBehind_line marked _ 1
    unworded := fun dot admits => by
      refine ⟨h.unworded dot admits, ?_⟩
      rw [h.behind last isLast]
      exact p.line_unworded marked free (last.admits_behind marked) _ 1
    tokens := by rw [tokens_phrase, tokensOf, p.tokens_line, h.tokens, List.flatMap_append, List.flatMap_singleton]
    trees := by
      rw [trees_spliced rfl, treesOf, p.trees_line, h.trees, List.flatMap_append, List.flatMap_singleton] }

/-- **Lines with a separator behind each have a derivation, and so have lines without one, if each property can
stand behind the one in the line above.** -/
theorem exists_row (marked : Bool) {ps : List PlainProperty} (some : ps ≠ [])
    (joins : marked = true ∨ ps.IsChain PlainProperty.Joins) : ∃ m, IsRow marked ps m := by
  induction ps using List.reverseRecOn with
  | nil => exact absurd rfl some
  | append_singleton ps p ih =>
    cases e : ps.getLast? with
    | none =>
      obtain rfl := List.getLast?_eq_none_iff.mp e
      exact ⟨_, isRow_one marked p⟩
    | some last =>
      have front : marked = true ∨ ps.IsChain PlainProperty.Joins :=
        joins.imp_right fun joins => (List.isChain_append.mp joins).1
      obtain ⟨m, isRow⟩ := ih (by rintro rfl; cases e) front
      refine ⟨_, isRow.more e ?_⟩
      cases marked with
      | true => exact free_new p
      | false =>
        have link := (List.isChain_append.mp (joins.resolve_left Bool.false_ne_true)).2.2 last e p rfl
        exact List.forall_mem_cons.mpr ⟨free_new p _ List.mem_cons_self, link⟩

end Derivation

end Typings
