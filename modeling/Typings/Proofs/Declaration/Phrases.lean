import Typings.Proofs.Declaration.Reads
import Typings.Proofs.Declaration.Sorted
/-!
# What the phrases of the grammar mean

A phrase shows as a row of trees, and the declarations are read off such rows.  For every phrase
there is a statement about its rows and the string literals under them.

* `Passes good ts literals`   the row `ts` can stand in front of every row that reads well;
* `Means n ts literals`       what a row of the phrase `n` is good for;
* `Shows s ts literals`       the same for a symbol;
* `Row slots ts literals`     a row made of the rows of some slots;
* `forms n`                   the slots of the rules of `n` that show in the tree;
* `Derivation.Valid.shows`    derivations mean what their phrases mean, if each form does.
-/

namespace Typings

/-! ## Rows of trees -/

/-- a row of trees can stand in front of every row that reads well -/
def Passes (good : List Tree → List Token → Prop) (ts : List Tree) (literals : List Token) : Prop :=
  ∀ rest more, good rest more → good (ts ++ rest) (literals ++ more)

namespace Passes
variable {good : List Tree → List Token → Prop} {ts ts' : List Tree} {ls ls' : List Token}

theorem nil : Passes good [] [] := fun _ _ h => h

theorem append (h : Passes good ts ls) (h' : Passes good ts' ls') :
    Passes good (ts ++ ts') (ls ++ ls') := by
  intro rest more g
  rw [List.append_assoc, List.append_assoc]
  exact h _ _ (h' _ _ g)

theorem alone (h : Passes good ts ls) (empty : good [] []) : good ts ls := by
  have := h [] [] empty
  rwa [List.append_nil, List.append_nil] at this

/-- a node whose part is put in front of the parts of the row behind it -/
theorem one {α : Type} {P : α → Prop} {build : List Tree → Except BuildError (List α)} {t : Tree}
    {r : Except BuildError α}
    (step : ∀ rest, build (t :: rest) = r >>= fun a => build rest >>= fun l => .ok (a :: l))
    (h : Reads ls P r) : Passes (fun ts ls => Reads ls (fun l => ∀ a ∈ l, P a) (build ts)) [t] ls := by
  intro rest more g
  show Reads _ _ (build (t :: rest))
  rw [step]
  exact h.bind fun a ha => g.map fun l hl => List.forall_mem_cons.mpr ⟨ha, hl⟩

end Passes

/-- all that a builder finds in a row has a property -/
def Builds {α : Type} (build : List Tree → Except BuildError (List α)) (P : α → Prop)
    (ts : List Tree) (ls : List Token) : Prop := Reads ls (fun l => ∀ a ∈ l, P a) (build ts)

/-- a builder that adds to the parts it is given keeps their property -/
def Adds {σ : Type} (build : σ → List Tree → Except BuildError σ) (P : σ → Prop)
    (ts : List Tree) (ls : List Token) : Prop := ∀ s, P s → Reads ls P (build s ts)

/-- a single node of a phrase -/
def Phrase (n : Nonterminal) (Q : Loc → List Tree → List Token → Prop) (ts : List Tree)
    (ls : List Token) : Prop := ∃ loc cs, ts = [.node (.phrase n) loc cs] ∧ Q loc cs ls

/-- a single node with some label -/
def Single (Q : Label → Loc → List Tree → List Token → Prop) (ts : List Tree) (ls : List Token) :
    Prop := ∃ label loc cs, ts = [.node label loc cs] ∧ Q label loc cs ls

/-- a single node that can stand in front of every row that reads well -/
def PassesNode (good : List Tree → List Token → Prop) (ts : List Tree) (ls : List Token) : Prop :=
  (∃ label loc cs, ts = [.node label loc cs]) ∧ Passes good ts ls

/-- a row, or nothing -/
def Perhaps (Q : List Tree → List Token → Prop) (ts : List Tree) (ls : List Token) : Prop :=
  Q ts ls ∨ (ts = [] ∧ ls = [])

/-! ## What a phrase is good for -/

/-- the phrases of imports and exports -/
def Label.isLink : Label → Bool
  | .phrase n =>
    n == .importAlias || n == .externalImport || n == .moduleImport || n == .exportAssignment ||
      n == .exportDefault || n == .exportList
  | .other _ => false

/-- the phrases in a class that are no members -/
def Label.isClassPart : Label → Bool
  | .phrase n => n == .typeParameters || n == .classExtends || n == .classImplements
  | .other _ => false

structure ClassParts.Sorted (parts : ClassParts) : Prop where
  typeParams : ∀ p ∈ parts.typeParams, p.Sorted
  base : ∀ t ∈ parts.base, t.SortedReference
  implements : ∀ t ∈ parts.implements, t.SortedReference
  members : ∀ m ∈ parts.members, m.Sorted

/-- the type parameters and the parameters of a signature are sorted -/
def Signature.SortedHeads (heads : List TypeParam × List Param) : Prop :=
  (∀ p ∈ heads.1, p.Sorted) ∧ ∀ p ∈ heads.2, p.Sorted

/-- what the parts of a signature read as -/
def Signature.ofRow (cs : List Tree) : Except BuildError Signature :=
  Signature.ofParts (Signature.headsIn ([], []) cs) (TypeExpr.ascriptionIn cs)

open TypeExpr in
/-- what a row of trees of a phrase is good for, and the string literals that are read for it -/
def Means : Nonterminal → List Tree → List Token → Prop
  -- types
  | .typeExpr | .primaryType | .predefinedType | .typeQuery | .arrayType | .functionType
  | .constructorType =>
    Single fun label loc cs ls =>
      label.isType = true ∧ Reads ls TypeExpr.Sorted (ofTree (.node label loc cs))
  | .typeReference =>
    Phrase .typeReference fun loc cs ls =>
      Reads ls SortedReference (ofTree (.node (.phrase .typeReference) loc cs))
  | .moreReferences => Passes (Builds ofTrees SortedReference)
  | .typeArguments => Phrase .typeArguments fun _ => Builds ofTrees TypeExpr.Sorted
  | .moreTypeArguments => Passes (Builds ofTrees TypeExpr.Sorted)
  | .ascription =>
    Phrase .ascription fun _ cs ls => ∃ r, firstIn? cs = some r ∧ Reads ls TypeExpr.Sorted r
  | .entityName => Phrase .entityName fun _ _ ls => ls = []
  -- parameters
  | .typeParameters => Phrase .typeParameters fun _ => Builds TypeParam.ofTrees TypeParam.Sorted
  | .typeParameter | .moreTypeParameters => Passes (Builds TypeParam.ofTrees TypeParam.Sorted)
  | .parameterList => Phrase .parameterList fun _ => Builds Param.ofTrees Param.Sorted
  | .parameter | .restParameter | .anyParameter | .moreParameters =>
    Passes (Builds Param.ofTrees Param.Sorted)
  | .accessibility =>
    Phrase .accessibility fun loc cs ls =>
      ls = [] ∧ ∃ text, Tree.headText (.phrase .accessibility) loc cs = .ok text
  -- members of interfaces
  | .callSignature =>
    Phrase .callSignature fun _ cs ls => Reads ls Signature.Sorted (Signature.ofRow cs)
  | .indexSignature =>
    Phrase .indexSignature fun loc cs ls =>
      Reads ls (fun m => m.Sorted ∧ m.IsIndex) (TypeMember.indexOf loc cs)
  | .constructSignature | .propertySignature | .methodSignature | .typeMember =>
    Single fun label loc cs ls => Reads ls TypeMember.Sorted (TypeMember.ofTree (.node label loc cs))
  | .objectMembers => Passes (Builds TypeMember.ofTrees TypeMember.Sorted)
  | .objectType => Phrase .objectType fun _ => Builds TypeMember.ofTrees TypeMember.Sorted
  | .memberSeparator => fun ts ls => ts = [] ∧ ls = []
  | .propertyName => fun ts ls => ∃ kind text loc,
      ts = [.leaf (some kind) text loc] ∧ (kind = .NAME ∨ kind = .STRING ∨ kind = .NUMERAL) ∧
        Reads ls (fun _ => True) (Tree.memberName (some kind) text loc)
  -- interfaces and classes
  | .interfaceExtends => Phrase .interfaceExtends fun _ => Builds ofTrees SortedReference
  | .interfaceDeclaration =>
    Phrase .interfaceDeclaration fun loc cs ls =>
      Reads ls InterfaceDecl.Sorted (InterfaceDecl.ofChildren loc cs)
  | .classExtends =>
    Phrase .classExtends fun loc cs ls => Reads ls SortedReference (baseIn loc cs)
  | .classImplements => Phrase .classImplements fun _ => Builds ofTrees SortedReference
  | .constructorDeclaration | .memberFunction | .memberVariable | .indexMember | .classMember =>
    Single fun label loc cs ls =>
      label.isClassPart = false ∧ Reads ls ClassMember.Sorted (ClassMember.ofNode label loc cs)
  | .classMembers => Passes (Adds ClassParts.addTrees ClassParts.Sorted)
  | .enumMember | .moreEnumMembers => Passes (Builds EnumMember.ofTrees fun _ => True)
  -- imports and exports
  | .binding | .moreBindings => fun ts ls =>
      ls = [] ∧ Passes (Builds Binding.ofTrees fun _ => True) ts []
  | .namedBindings =>
    Phrase .namedBindings fun _ cs ls => ls = [] ∧ Builds Binding.ofTrees (fun _ => True) cs []
  | .defaultBinding | .namespaceBinding | .importClause => fun ts ls =>
      ls = [] ∧ PassesNode (Adds ImportParts.addTrees fun _ => True) ts []
  | .importAlias | .externalImport | .moduleImport | .exportAssignment | .exportDefault
  | .exportList =>
    Single fun label loc cs ls =>
      label.isLink = true ∧ Reads ls (fun l => l ≠ none) (ModuleLink.ofNode? label loc cs)
  -- declarations and files
  | .moreSegments => fun ts ls => ls = [] ∧ Passes (Builds Tree.path fun _ => True) ts []
  | .moduleName => Phrase .moduleName fun _ => Builds Tree.path fun _ => True
  | .ambientVar | .ambientFunction | .ambientClass | .ambientInterface | .ambientEnum
  | .ambientModule | .ambientBody =>
    Single fun label loc cs ls =>
      Reads ls AmbientDecl.Sorted (AmbientDecl.ofTree (.node label loc cs))
  | .moduleAmbientElement | .moduleElement =>
    PassesNode fun ts ls =>
      ∀ skipName, Builds (ModuleElement.ofTrees skipName) ModuleElement.Sorted ts ls
  | .moduleElements =>
    Passes fun ts ls => ∀ skipName, Builds (ModuleElement.ofTrees skipName) ModuleElement.Sorted ts ls
  | .interfaceElement | .ambientElement | .element =>
    PassesNode (Builds Element.ofTrees Element.Sorted)
  | .fileElements => Passes (Builds Element.ofTrees Element.Sorted)
  | .file => Phrase .file fun _ => Builds Element.ofTrees Element.Sorted

/-- what a row of trees of a symbol is good for -/
def Shows : Symbol → List Tree → List Token → Prop
  | .terminal t => fun ts ls => ∃ token : Token, token.kind = t ∧
      ts = Derivation.trees (.leaf token) ∧ ls = Derivation.literals (.leaf token)
  | .nonterminal n => Means n

/-! ## Rows of slots -/

/-- string literals one after the other, or backwards -/
def inOrder (back : Bool) (ls ls' : List Token) : List Token := if back then ls' ++ ls else ls ++ ls'

/-- a row of trees made of the rows of some slots -/
inductive Row (back : Bool) : List Slot → List Tree → List Token → Prop
  | nil : Row back [] [] []
  | once {s : Symbol} {slots : List Slot} {ts ts' : List Tree} {ls ls' : List Token}
      (here : Shows s ts ls) (further : Row back slots ts' ls') :
      Row back (.once s :: slots) (ts ++ ts') (inOrder back ls ls')
  | optional {s : Symbol} {slots : List Slot} {ts ts' : List Tree} {ls ls' : List Token}
      (here : Perhaps (Shows s) ts ls) (further : Row back slots ts' ls') :
      Row back (.optional s :: slots) (ts ++ ts') (inOrder back ls ls')

/-- a slot leaves something in the tree -/
def Slot.isVisible : Slot → Bool
  | .once (.terminal t) | .optional (.terminal t) => t.isKept
  | _ => true

theorem shows_hidden {t : Terminal} {ts : List Tree} {ls : List Token}
    (h : Shows (.terminal t) ts ls) (hidden : t.isKept = false) : ts = [] ∧ ls = [] := by
  obtain ⟨token, rfl, rfl, rfl⟩ := h
  constructor
  · rw [Derivation.trees, hidden]
    rfl
  · rw [Derivation.literals, if_neg]
    intro isString
    rw [isString] at hidden
    cases hidden

theorem inOrder_nil (back : Bool) (ls : List Token) : inOrder back [] ls = ls := by
  cases back with
  | false => rfl
  | true => exact List.append_nil ls

/-- what does not show can be left out -/
theorem Row.visible {back : Bool} {slots : List Slot} {ts : List Tree} {ls : List Token}
    (h : Row back slots ts ls) : Row back (slots.filter Slot.isVisible) ts ls := by
  induction h with
  | nil => exact .nil
  | @once s slots ts ts' ls ls' here further ih =>
    cases vis : Slot.isVisible (.once s) with
    | true =>
      rw [List.filter_cons_of_pos vis]
      exact .once here ih
    | false =>
      rw [List.filter_cons_of_neg (by rw [vis]; exact Bool.false_ne_true)]
      cases s with
      | nonterminal n => cases vis
      | terminal t =>
        obtain ⟨rfl, rfl⟩ := shows_hidden here vis
        rwa [inOrder_nil, List.nil_append]
  | @optional s slots ts ts' ls ls' here further ih =>
    cases vis : Slot.isVisible (.optional s) with
    | true =>
      rw [List.filter_cons_of_pos vis]
      exact .optional here ih
    | false =>
      rw [List.filter_cons_of_neg (by rw [vis]; exact Bool.false_ne_true)]
      cases s with
      | nonterminal n => cases vis
      | terminal t =>
        have none : ts = [] ∧ ls = [] := by
          rcases here with here | none
          · exact shows_hidden here vis
          · exact none
        obtain ⟨rfl, rfl⟩ := none
        rwa [inOrder_nil, List.nil_append]

/-- the row of the parts of a derivation -/
theorem row_of_chosen {back : Bool} {slots : List Slot} {symbols : List Symbol}
    {ds : List Derivation} (h : Slot.Chosen slots symbols) (roots : ds.map Derivation.root = symbols)
    (shows : ∀ d ∈ ds, Shows d.root d.trees d.literals) :
    Row back slots (Derivation.treesOf ds) (Derivation.literalsOf back ds) := by
  induction h generalizing ds with
  | nil =>
    rw [List.map_eq_nil_iff] at roots
    subst roots
    exact .nil
  | once s further ih =>
    obtain ⟨d, rest, rfl, rfl, later⟩ := List.map_eq_cons_iff.mp roots
    obtain ⟨here, there⟩ := List.forall_mem_cons.mp shows
    exact .once here (ih later there)
  | taken s further ih =>
    obtain ⟨d, rest, rfl, rfl, later⟩ := List.map_eq_cons_iff.mp roots
    obtain ⟨here, there⟩ := List.forall_mem_cons.mp shows
    exact .optional (.inl here) (ih later there)
  | left s further ih =>
    have nothing : Perhaps (Shows s) [] [] := .inr ⟨rfl, rfl⟩
    have row := Row.optional nothing (ih roots shows)
    rwa [inOrder_nil, List.nil_append] at row

/-! ## The forms of a phrase -/

section
open Terminal Nonterminal Slot

/-- the slots of the rules of a phrase that show in the tree -/
def forms : Nonterminal → List (List Slot)
  | file => [[fileElements], []]
  | fileElements => [[element], [fileElements, element]]
  | element => [[interfaceElement], [ambientElement], [importAlias], [externalImport],
      [moduleImport], [exportAssignment], [exportDefault], [exportList]]
  | interfaceElement => [[optional EXPORT, interfaceDeclaration]]
  | ambientElement => [[optional EXPORT, DECLARE, ambientBody]]
  | importAlias => [[optional EXPORT, NAME, entityName]]
  | externalImport => [[optional EXPORT, NAME, STRING]]
  | moduleImport => [[importClause, STRING], [STRING]]
  | importClause => [[defaultBinding], [namespaceBinding], [namedBindings],
      [defaultBinding, namespaceBinding], [defaultBinding, namedBindings]]
  | defaultBinding | namespaceBinding => [[NAME]]
  | namedBindings => [[binding, optional moreBindings], []]
  | moreBindings => [[binding], [moreBindings, binding]]
  | binding => [[NAME, NAME], [NAME]]
  | exportAssignment | exportDefault => [[EXPORT, entityName]]
  | exportList => [[EXPORT, namedBindings, STRING], [EXPORT, namedBindings]]
  | ambientBody => [[ambientVar], [ambientFunction], [ambientClass], [ambientInterface],
      [ambientEnum], [ambientModule]]
  | ambientVar => [[NAME, optional ascription], [CONST, NAME, optional ascription]]
  | ambientFunction => [[NAME, callSignature]]
  | ambientInterface => [[interfaceDeclaration]]
  | ambientEnum =>
    [[optional CONST, NAME, enumMember, optional moreEnumMembers], [optional CONST, NAME]]
  | moreEnumMembers => [[enumMember], [moreEnumMembers, enumMember]]
  | enumMember => [[propertyName, NUMERAL], [propertyName]]
  | ambientClass => [[NAME, optional typeParameters, optional classExtends,
      optional classImplements, optional classMembers]]
  | classExtends => [[typeReference]]
  | classImplements | interfaceExtends => [[typeReference, optional moreReferences]]
  | moreReferences => [[typeReference], [moreReferences, typeReference]]
  | classMembers => [[classMember], [classMembers, classMember]]
  | classMember => [[constructorDeclaration], [memberFunction], [memberVariable], [indexMember]]
  | constructorDeclaration => [[optional accessibility, optional parameterList]]
  | memberFunction =>
    [[optional accessibility, optional STATIC, propertyName, optional QMARK, callSignature]]
  | memberVariable =>
    [[optional accessibility, optional STATIC, propertyName, optional QMARK, optional ascription]]
  | accessibility => [[PUBLIC], [PRIVATE], [PROTECTED]]
  | indexMember => [[indexSignature]]
  | ambientModule => [[moduleName, optional moduleElements]]
  | moduleName => [[NAME, optional moreSegments], [STRING]]
  | moreSegments => [[NAME], [moreSegments, NAME]]
  | moduleElements => [[moduleElement], [moduleElements, moduleElement]]
  | moduleElement => [[moduleAmbientElement], [importAlias], [externalImport], [moduleImport],
      [exportAssignment], [exportDefault], [exportList]]
  | moduleAmbientElement => [[optional EXPORT, optional DECLARE, ambientBody]]
  | interfaceDeclaration => [[NAME, optional typeParameters, optional interfaceExtends, objectType]]
  | objectType => [[optional objectMembers]]
  | objectMembers => [[typeMember, optional memberSeparator],
      [objectMembers, typeMember, optional memberSeparator]]
  | memberSeparator => [[]]
  | typeMember => [[propertySignature], [methodSignature], [callSignature], [constructSignature],
      [indexSignature]]
  | propertySignature => [[propertyName, optional QMARK, optional ascription]]
  | methodSignature => [[propertyName, optional QMARK, callSignature]]
  | callSignature | constructSignature =>
    [[optional typeParameters, optional parameterList, optional ascription]]
  | indexSignature => [[NAME, typeExpr, ascription]]
  | propertyName => [[NAME], [STRING], [NUMERAL]]
  | parameterList => [[anyParameter, optional moreParameters]]
  | moreParameters => [[anyParameter], [moreParameters, anyParameter]]
  | anyParameter => [[parameter], [restParameter]]
  | parameter => [[optional accessibility, NAME, optional QMARK, optional ascription]]
  | restParameter => [[NAME, optional ascription]]
  | typeParameters => [[typeParameter, optional moreTypeParameters]]
  | moreTypeParameters => [[typeParameter], [moreTypeParameters, typeParameter]]
  | typeParameter => [[NAME, typeExpr], [NAME]]
  | ascription => [[typeExpr]]
  | typeExpr => [[primaryType], [functionType], [constructorType]]
  | primaryType => [[predefinedType], [typeReference], [typeQuery], [objectType], [arrayType]]
  | predefinedType => [[ANY], [NUMBER], [BOOLEAN], [STRINGTYPE], [VOID]]
  | typeReference => [[entityName, optional typeArguments]]
  | typeArguments => [[typeExpr, optional moreTypeArguments]]
  | moreTypeArguments => [[typeExpr], [moreTypeArguments, typeExpr]]
  | typeQuery => [[entityName]]
  | arrayType => [[primaryType]]
  | functionType | constructorType =>
    [[optional typeParameters, optional parameterList, typeExpr]]
  | entityName => [[NAME, optional moreSegments]]

end

/-- every rule of the grammar has one of the forms of its phrase -/
theorem visible_mem_forms : ∀ r ∈ rules, r.slots.filter Slot.isVisible ∈ forms r.lhs := by
  decide +kernel

/-- a row is made of one of some lists of slots -/
def AnyRow (back : Bool) (ts : List Tree) (ls : List Token) : List (List Slot) → Prop
  | [] => False
  | [slots] => Row back slots ts ls
  | slots :: more => Row back slots ts ls ∨ AnyRow back ts ls more

theorem anyRow_of_mem {back : Bool} {ts : List Tree} {ls : List Token} {slots : List Slot}
    {all : List (List Slot)} (mem : slots ∈ all) (row : Row back slots ts ls) :
    AnyRow back ts ls all := by
  induction all with
  | nil => cases mem
  | cons first more ih =>
    cases more with
    | nil =>
      rw [← List.mem_singleton.mp mem]
      exact row
    | cons second more =>
      rcases List.mem_cons.mp mem with rfl | mem
      · exact .inl row
      · exact .inr (ih mem)

/-- a row has one of the forms of a phrase -/
def Formed (n : Nonterminal) (ts : List Tree) (ls : List Token) : Prop :=
  AnyRow (n == .indexSignature) ts ls (forms n)

theorem formed_of_valid {p : Production} {parts : List Derivation} (mem : p ∈ productions)
    (roots : parts.map Derivation.root = p.rhs)
    (shows : ∀ d ∈ parts, Shows d.root d.trees d.literals) :
    Formed p.lhs (Derivation.treesOf parts) (Derivation.literals (.node p parts)) := by
  obtain ⟨r, hr, lhs, chosen⟩ := (mem_productions p).mp mem
  have row : Row (r.lhs == .indexSignature) _ _ _ := (row_of_chosen chosen roots shows).visible
  rw [Derivation.literals, ← lhs]
  exact anyRow_of_mem (visible_mem_forms r hr) row

end Typings
