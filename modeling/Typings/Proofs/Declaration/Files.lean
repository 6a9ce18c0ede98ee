import Typings.Proofs.Declaration.Classes
import Typings.Proofs.Declaration.Links
/-!
# Reading declarations and files

The phrases of ambient declarations, modules and files mean what `Means` says, so every valid
derivation does.

* `ambientBody_means`, `moduleElement_means`, `element_means`, …   one lemma for each phrase;
* `means_of_formed`                      every form of a phrase means what the phrase does;
* `Derivation.Valid.shows`               so does every valid derivation;
* `SourceFile.reads`                     and so does a file.
-/

namespace Typings
open Typings.Tree

section
open Terminal Nonterminal Slot
variable {loc : Loc} {ts : List Tree} {ls : List Token}

/-! ## Ambient declarations -/

theorem ambientVar_means (h : Row false [NAME, optional ascription] ts ls ∨
    Row false [CONST, NAME, optional ascription] ts ls) :
    Means ambientVar [.node (.phrase ambientVar) loc ts] ls := by
  have parts : ∃ tm tn tt, ts = tm ++ (tn ++ tt) ∧ Perhaps (Shows CONST) tm [] ∧ Shows NAME tn [] ∧
      Perhaps (Shows ascription) tt ls := by
    rcases h with h | h
    · obtain ⟨tn, tt, ln, lt, rfl, rfl, here, h₁⟩ := h.once_inv
      obtain ⟨rfl, -⟩ := here.word rfl (by decide)
      exact ⟨[], tn, tt, rfl, .inr ⟨rfl, rfl⟩, here, h₁.lastOptional_inv⟩
    · obtain ⟨tm, ts₁, lm, ls₁, rfl, rfl, mark, h₁⟩ := h.once_inv
      obtain ⟨tn, tt, ln, lt, rfl, rfl, here, h₂⟩ := h₁.once_inv
      obtain ⟨rfl, -⟩ := mark.word rfl (by decide)
      obtain ⟨rfl, -⟩ := here.word rfl (by decide)
      exact ⟨tm, tn, tt, rfl, .inl mark, here, h₂.lastOptional_inv⟩
  obtain ⟨tm, tn, tt, rfl, mark, here, type⟩ := parts
  obtain ⟨-, name, found⟩ := here.name (mark.token?_ne (by decide)) (.phrase ambientVar) loc tt
  have same : TypeExpr.ascriptionIn (tm ++ (tn ++ tt)) = TypeExpr.ascriptionIn tt := by
    rw [TypeExpr.ascriptionIn_append (mark.child?_word _),
      TypeExpr.ascriptionIn_append (here.child?_word _)]
  refine ⟨_, loc, _, rfl, ?_⟩
  show Reads _ _ (AmbientDecl.ofTree _)
  rw [AmbientDecl.ofTree, found, same]
  exact (ascription_reads type).map fun t sorted => .variableDecl loc name sorted

theorem ambientFunction_means (h : Row false [NAME, callSignature] ts ls) :
    Means ambientFunction [.node (.phrase ambientFunction) loc ts] ls := by
  obtain ⟨tn, tc, ln, lc, rfl, rfl, here, further⟩ := h.once_inv
  have call := further.last_inv
  obtain ⟨rfl, name, found⟩ := here.name (a := []) rfl (.phrase ambientFunction) loc tc
  rw [List.nil_append] at found
  have signature := callIn_reads (here.child?_word _) call (.phrase ambientFunction) loc
  refine ⟨_, loc, _, rfl, ?_⟩
  show Reads _ _ (AmbientDecl.ofTree _)
  rw [AmbientDecl.ofTree, found]
  exact signature.map fun s sorted => .functionDecl loc name sorted

theorem ambientBody_means (h : Row false [ambientVar] ts ls ∨ Row false [ambientFunction] ts ls ∨
    Row false [ambientClass] ts ls ∨ Row false [ambientInterface] ts ls ∨
    Row false [ambientEnum] ts ls ∨ Row false [ambientModule] ts ls) :
    Means ambientBody (Derivation.shown ambientBody loc ts) ls := by
  have node : Means ambientBody ts ls := by
    rcases h with h | h | h | h | h | h
    all_goals exact h.last_inv
  rw [Means] at node ⊢
  exact node.shown rfl

/-- the declaration is the only node behind its marks -/
theorem firstIn_marks {t : Terminal} {a : List Tree} (h : Perhaps (Shows (.terminal t)) a ls)
    (b : List Tree) : AmbientDecl.firstIn? (a ++ b) = AmbientDecl.firstIn? b := by
  rcases h with ⟨token, _, rfl, _⟩ | ⟨rfl, _⟩
  · rw [Derivation.trees]
    by_cases kept : token.kind.isKept = true
    · rw [if_pos kept, List.singleton_append, AmbientDecl.firstIn?]
    · rw [if_neg kept, List.nil_append]
  · rw [List.nil_append]

theorem firstIn_body {t t' : Terminal} {tm td : List Tree} {lm ld : List Token}
    (mark : Perhaps (Shows (.terminal t)) tm lm) (declared : Perhaps (Shows (.terminal t')) td ld)
    (label : Label) (loc : Loc) (cs : List Tree) :
    AmbientDecl.firstIn? (tm ++ (td ++ [.node label loc cs])) =
      some (AmbientDecl.ofTree (.node label loc cs)) := by
  rw [firstIn_marks mark, firstIn_marks declared, AmbientDecl.firstIn?]

/-! ## Modules -/

/-- elements of a module -/
def ModuleElementsRead (ts : List Tree) (ls : List Token) : Prop :=
  ∀ skipName, Builds (ModuleElement.ofTrees skipName) ModuleElement.Sorted ts ls

theorem moduleAmbientElement_means
    (h : Row false [optional EXPORT, optional DECLARE, ambientBody] ts ls) :
    Means moduleAmbientElement [.node (.phrase moduleAmbientElement) loc ts] ls := by
  obtain ⟨tm, ts₁, lm, ls₁, rfl, rfl, mark, h₁⟩ := h.optional_inv
  obtain ⟨td, tb, ld, lb, rfl, rfl, declared, h₂⟩ := h₁.optional_inv
  obtain ⟨label, loc', cs, rfl, reads⟩ := h₂.last_inv
  obtain ⟨rfl, -⟩ := mark.word rfl (by decide)
  obtain ⟨rfl, -⟩ := declared.word rfl (by decide)
  have first := firstIn_body mark declared label loc' cs
  refine ⟨⟨_, _, _, rfl⟩, ?_⟩
  intro rest more good skipName
  show Reads _ _ (ModuleElement.ofTrees skipName _)
  rw [List.singleton_append, ModuleElement.ofTrees, if_neg (by simp), if_pos rfl, first]
  exact reads.bind fun decl sorted => (good skipName).map fun elements h =>
    List.forall_mem_cons.mpr ⟨.bare _ sorted, h⟩

/-- an import or an export is an element of a module -/
theorem link_isModuleElement
    (h : Single (fun label loc cs ls =>
      label.isLink = true ∧ Reads ls (fun l => l ≠ none) (ModuleLink.ofNode? label loc cs)) ts ls) :
    Means moduleElement ts ls := by
  obtain ⟨label, loc', cs, rfl, isLink, reads⟩ := h
  have ne : label ≠ .phrase moduleName := by
    rintro rfl
    cases isLink
  have ne' : label ≠ .phrase moduleAmbientElement := by
    rintro rfl
    cases isLink
  refine ⟨⟨_, _, _, rfl⟩, ?_⟩
  intro rest more good skipName
  show Reads _ _ (ModuleElement.ofTrees skipName _)
  rw [List.singleton_append, ModuleElement.ofTrees, if_neg (fun h => ne h.2), if_neg ne']
  refine reads.bind fun found some => ?_
  cases found with
  | none => exact absurd rfl some
  | some link => exact (good skipName).map fun elements h =>
      List.forall_mem_cons.mpr ⟨.link _ link, h⟩

theorem moduleElement_means (h : Row false [moduleAmbientElement] ts ls ∨
    Row false [importAlias] ts ls ∨ Row false [externalImport] ts ls ∨
    Row false [moduleImport] ts ls ∨ Row false [exportAssignment] ts ls ∨
    Row false [exportDefault] ts ls ∨ Row false [exportList] ts ls) :
    Means moduleElement (Derivation.shown moduleElement loc ts) ls := by
  have node : Means moduleElement ts ls := by
    rcases h with h | h
    · exact h.last_inv
    · rcases h with h | h | h | h | h | h
      all_goals exact link_isModuleElement h.last_inv
  rw [Means] at node ⊢
  exact node.shown rfl

theorem moduleElements_means
    (h : Row false [moduleElement] ts ls ∨ Row false [moduleElements, moduleElement] ts ls) :
    Means moduleElements ts ls := passes_repeated h (fun _ _ h => h.2) rfl

theorem ambientModule_means (h : Row false [moduleName, optional moduleElements] ts ls) :
    Means ambientModule [.node (.phrase ambientModule) loc ts] ls := by
  obtain ⟨tn, te, ln, le, rfl, rfl, name, further⟩ := h.once_inv
  obtain ⟨loc', cs, rfl, path⟩ := name
  have none : ModuleElementsRead [] [] := by
    intro skipName
    show Reads _ _ (ModuleElement.ofTrees skipName _)
    rw [ModuleElement.ofTrees]
    exact .ok fun a h => absurd h List.not_mem_nil
  have elements := (Perhaps.passes further.lastOptional_inv).alone none
  refine ⟨_, loc, _, rfl, ?_⟩
  show Reads _ _ (AmbientDecl.ofTree _)
  rw [AmbientDecl.ofTree, List.singleton_append, ModuleElement.ofTrees, if_pos ⟨rfl, rfl⟩]
  exact path.bind fun path _ => (elements false).map fun elements h => .moduleDecl loc path h

/-! ## Files -/

/-- a node that is an element adds one to those behind it -/
theorem node_passesElement {label : Label} {cs : List Tree}
    (h : Reads ls (fun e => ∃ e' ∈ e, e'.Sorted) (Element.ofNode? label loc cs)) :
    PassesNode (Builds Element.ofTrees Element.Sorted) [.node label loc cs] ls := by
  refine ⟨⟨_, _, _, rfl⟩, ?_⟩
  intro rest more good
  show Reads _ _ (Element.ofTrees _)
  rw [List.singleton_append, Element.ofTrees]
  refine h.bind fun found isElement => ?_
  obtain ⟨e, rfl, sorted⟩ := isElement
  exact good.map fun elements h => List.forall_mem_cons.mpr ⟨sorted, h⟩

theorem interfaceElement_means (h : Row false [optional EXPORT, interfaceDeclaration] ts ls) :
    Means interfaceElement [.node (.phrase interfaceElement) loc ts] ls := by
  obtain ⟨tm, ti, lm, li, rfl, rfl, mark, further⟩ := h.optional_inv
  obtain ⟨loc', cs, rfl, reads⟩ := further.last_inv
  obtain ⟨rfl, -⟩ := mark.word rfl (by decide)
  have found : child (.phrase interfaceElement) loc interfaceDeclaration
      (tm ++ [.node (.phrase interfaceDeclaration) loc' cs]) = .ok (loc', cs) := by
    rw [child, child?_append, mark.child?_word]
    rfl
  apply node_passesElement
  rw [Element.ofNode?, found]
  exact reads.map fun decl sorted => ⟨_, rfl, .interfaceElement loc _ sorted⟩

theorem ambientElement_means (h : Row false [optional EXPORT, DECLARE, ambientBody] ts ls) :
    Means ambientElement [.node (.phrase ambientElement) loc ts] ls := by
  obtain ⟨tm, ts₁, lm, ls₁, rfl, rfl, mark, h₁⟩ := h.optional_inv
  obtain ⟨td, tb, ld, lb, rfl, rfl, declared, h₂⟩ := h₁.once_inv
  obtain ⟨label, loc', cs, rfl, reads⟩ := h₂.last_inv
  obtain ⟨rfl, -⟩ := mark.word rfl (by decide)
  obtain ⟨rfl, -⟩ := declared.word rfl (by decide)
  have first := firstIn_body mark (.inl declared) label loc' cs
  apply node_passesElement
  rw [Element.ofNode?, first]
  exact reads.map fun decl sorted => ⟨_, rfl, .ambientElement loc _ sorted⟩

/-- an import or an export is an element of a file -/
theorem link_isElement
    (h : Single (fun label loc cs ls =>
      label.isLink = true ∧ Reads ls (fun l => l ≠ none) (ModuleLink.ofNode? label loc cs)) ts ls) :
    Means element ts ls := by
  obtain ⟨label, loc', cs, rfl, isLink, reads⟩ := h
  have isElement : Element.ofNode? label loc' cs =
      ModuleLink.ofNode? label loc' cs >>= fun link => .ok (link.map .link) := by
    unfold Element.ofNode?
    split
    · cases isLink
    · cases isLink
    · rfl
  apply node_passesElement
  rw [isElement]
  refine reads.map fun found some => ?_
  cases found with
  | none => exact absurd rfl some
  | some link => exact ⟨_, rfl, .link link⟩

theorem element_means (h : Row false [interfaceElement] ts ls ∨ Row false [ambientElement] ts ls ∨
    Row false [importAlias] ts ls ∨ Row false [externalImport] ts ls ∨
    Row false [moduleImport] ts ls ∨ Row false [exportAssignment] ts ls ∨
    Row false [exportDefault] ts ls ∨ Row false [exportList] ts ls) :
    Means element (Derivation.shown element loc ts) ls := by
  have node : Means element ts ls := by
    rcases h with h | h | h
    · exact h.last_inv
    · exact h.last_inv
    · rcases h with h | h | h | h | h | h
      all_goals exact link_isElement h.last_inv
  rw [Means] at node ⊢
  exact node.shown rfl

theorem fileElements_means
    (h : Row false [element] ts ls ∨ Row false [fileElements, element] ts ls) :
    Means fileElements ts ls := passes_repeated h (fun _ _ h => h.2) rfl

theorem file_means (h : Row false [fileElements] ts ls ∨ Row false [] ts ls) :
    Means file [.node (.phrase file) loc ts] ls := by
  have none : Builds Element.ofTrees Element.Sorted [] [] :=
    .ok fun a h => absurd h List.not_mem_nil
  rcases h with h | h
  · exact ⟨loc, ts, rfl, Passes.alone h.last_inv none⟩
  · obtain ⟨rfl, rfl⟩ := h.nil_inv
    exact ⟨loc, [], rfl, none⟩

end

/-! ## All phrases -/

/-- **Every form of a phrase means what the phrase does.** -/
theorem means_of_formed {n : Nonterminal} {ts : List Tree} {ls : List Token} (loc : Loc)
    (h : Formed n ts ls) : Means n (Derivation.shown n loc ts) ls := by
  cases n with
  | file => exact file_means h
  | element => exact element_means h
  | interfaceElement => exact interfaceElement_means h
  | ambientElement => exact ambientElement_means h
  | importAlias => exact importAlias_means h
  | externalImport => exact externalImport_means h
  | moduleImport => exact moduleImport_means h
  | importClause => exact importClause_means h
  | defaultBinding => exact defaultBinding_means h
  | namespaceBinding => exact namespaceBinding_means h
  | namedBindings => exact namedBindings_means h
  | binding => exact binding_means h
  | exportAssignment => exact exportAssignment_means h
  | exportDefault => exact exportDefault_means h
  | exportList => exact exportList_means h
  | ambientBody => exact ambientBody_means h
  | ambientVar => exact ambientVar_means h
  | ambientFunction => exact ambientFunction_means h
  | ambientInterface => exact ambientInterface_means h
  | ambientEnum => exact ambientEnum_means h
  | enumMember => exact enumMember_means h
  | ambientClass => exact ambientClass_means h
  | classExtends => exact classExtends_means h
  | classImplements => exact classImplements_means h
  | classMember => exact classMember_means h
  | constructorDeclaration => exact constructorDeclaration_means h
  | memberFunction => exact memberFunction_means h
  | memberVariable => exact memberVariable_means h
  | accessibility => exact accessibility_means h
  | indexMember => exact indexMember_means h
  | ambientModule => exact ambientModule_means h
  | moduleName => exact moduleName_means h
  | moduleElement => exact moduleElement_means h
  | moduleAmbientElement => exact moduleAmbientElement_means h
  | interfaceDeclaration => exact interfaceDeclaration_means h
  | interfaceExtends => exact interfaceExtends_means h
  | objectType => exact objectType_means h
  | memberSeparator => exact h.nil_inv
  | typeMember => exact typeMember_means h
  | propertySignature => exact propertySignature_means h
  | methodSignature => exact methodSignature_means h
  | constructSignature => exact constructSignature_means h
  | indexSignature => exact indexSignature_means h
  | callSignature => exact callSignature_means h
  | propertyName => exact propertyName_means h
  | parameterList => exact parameterList_means h
  | anyParameter => exact anyParameter_means h
  | parameter => exact parameter_means h
  | restParameter => exact restParameter_means h
  | typeParameters => exact typeParameters_means h
  | typeParameter => exact typeParameter_means h
  | ascription => exact ascription_means h
  | typeExpr => exact typeExpr_means h
  | primaryType => exact primaryType_means h
  | predefinedType => exact predefinedType_means h
  | typeReference => exact typeReference_means h
  | typeArguments => exact typeArguments_means h
  | typeQuery => exact typeQuery_means h
  | arrayType => exact arrayType_means h
  | functionType => exact functionType_means h
  | constructorType => exact constructorType_means h
  | entityName => exact entityName_means h
  | fileElements => exact fileElements_means h
  | moreBindings => exact moreBindings_means h
  | moreEnumMembers => exact passes_repeated h (fun _ _ h => h) rfl
  | classMembers => exact classMembers_means h
  | moreReferences => exact passes_repeated h (fun _ _ => reference_passes) rfl
  | moduleElements => exact moduleElements_means h
  | moreSegments => exact moreSegments_means h
  | objectMembers => exact objectMembers_means h
  | moreParameters => exact passes_repeated h (fun _ _ h => h) rfl
  | moreTypeParameters => exact passes_repeated h (fun _ _ h => h) rfl
  | moreTypeArguments => exact passes_repeated h (fun _ _ => type_passes) rfl

namespace Derivation

mutual

/-- a valid derivation shows as its root means -/
theorem Valid.shows : ∀ {d : Derivation}, Valid d → Shows d.root d.trees d.literals
  | _, .leaf token => ⟨token, rfl, rfl, rfl⟩
  | _, .node mem roots valid => by
    rw [trees]
    exact means_of_formed _ (formed_of_valid mem roots (AllValid.shows valid))

theorem AllValid.shows :
    ∀ {ds : List Derivation}, AllValid ds → ∀ d ∈ ds, Shows d.root d.trees d.literals
  | _, .nil => fun _ h => absurd h List.not_mem_nil
  | _, .cons valid rest => List.forall_mem_cons.mpr ⟨Valid.shows valid, AllValid.shows rest⟩

end

end Derivation

end Typings
