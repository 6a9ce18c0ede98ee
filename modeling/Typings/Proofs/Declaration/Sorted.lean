import Typings.Declaration.Basic
/-!
# Well-sorted declarations

Every part of a declaration is of a kind that belongs in its place: no part is unknown, what a class
or an interface extends and what a class implements are references, the index signature of a class
member is one, and the elements of files and modules are of their own kinds.

* `TypeExpr.Sorted`, `TypeParam.Sorted`, `Param.Sorted`, `Signature.Sorted`, `TypeMember.Sorted`;
* `InterfaceDecl.Sorted`, `ClassMember.Sorted`;
* `AmbientDecl.Sorted`, `ModuleElement.Sorted`, `Element.Sorted`, `SourceFile.Sorted`.
-/

namespace Typings

/-! ## Types -/

namespace TypeExpr

/-- a name with type arguments -/
def IsReference : TypeExpr → Prop
  | reference .. => True
  | _ => False

end TypeExpr

namespace TypeMember

/-- an index signature -/
def IsIndex : TypeMember → Prop
  | index .. => True
  | _ => False

end TypeMember

mutual

inductive TypeExpr.Sorted : TypeExpr → Prop
  | predefined (loc : Loc) (name : Text) : TypeExpr.Sorted (.predefined loc name)
  | reference (loc : Loc) (name : Text) {args : List TypeExpr}
      (sorted : ∀ t ∈ args, TypeExpr.Sorted t) : TypeExpr.Sorted (.reference loc name args)
  | query (loc : Loc) (name : Text) : TypeExpr.Sorted (.query loc name)
  | object (loc : Loc) {members : List TypeMember}
      (sorted : ∀ m ∈ members, TypeMember.Sorted m) : TypeExpr.Sorted (.object loc members)
  | array (loc : Loc) {element : TypeExpr} (sorted : TypeExpr.Sorted element) :
      TypeExpr.Sorted (.array loc element)
  | function (loc : Loc) {typeParams : List TypeParam} {params : List Param} {result : TypeExpr}
      (sortedTypeParams : ∀ p ∈ typeParams, TypeParam.Sorted p)
      (sortedParams : ∀ p ∈ params, Param.Sorted p) (sorted : TypeExpr.Sorted result) :
      TypeExpr.Sorted (.function loc typeParams params result)
  | construct (loc : Loc) {typeParams : List TypeParam} {params : List Param} {result : TypeExpr}
      (sortedTypeParams : ∀ p ∈ typeParams, TypeParam.Sorted p)
      (sortedParams : ∀ p ∈ params, Param.Sorted p) (sorted : TypeExpr.Sorted result) :
      TypeExpr.Sorted (.construct loc typeParams params result)

inductive TypeParam.Sorted : TypeParam → Prop
  | mk (name : Text) {bound : Option TypeExpr} (sorted : ∀ t ∈ bound, TypeExpr.Sorted t) :
      TypeParam.Sorted (.mk name bound)

inductive Param.Sorted : Param → Prop
  | single (loc : Loc) (name : Text) {type : Option TypeExpr} (optional : Bool)
      (accessibility : Option Text) (sorted : ∀ t ∈ type, TypeExpr.Sorted t) :
      Param.Sorted (.single loc name type optional accessibility)
  | rest (loc : Loc) (name : Text) {type : Option TypeExpr}
      (sorted : ∀ t ∈ type, TypeExpr.Sorted t) : Param.Sorted (.rest loc name type)

inductive Signature.Sorted : Signature → Prop
  | mk {typeParams : List TypeParam} {params : List Param} {result : Option TypeExpr}
      (sortedTypeParams : ∀ p ∈ typeParams, TypeParam.Sorted p)
      (sortedParams : ∀ p ∈ params, Param.Sorted p) (sorted : ∀ t ∈ result, TypeExpr.Sorted t) :
      Signature.Sorted (.mk typeParams params result)

inductive TypeMember.Sorted : TypeMember → Prop
  | property (loc : Loc) (name : Text) {type : Option TypeExpr} (optional : Bool)
      (sorted : ∀ t ∈ type, TypeExpr.Sorted t) : TypeMember.Sorted (.property loc name type optional)
  | method (loc : Loc) (name : Text) {signature : Signature} (optional : Bool)
      (sorted : Signature.Sorted signature) : TypeMember.Sorted (.method loc name signature optional)
  | call (loc : Loc) {signature : Signature} (sorted : Signature.Sorted signature) :
      TypeMember.Sorted (.call loc signature)
  | construct (loc : Loc) {signature : Signature} (sorted : Signature.Sorted signature) :
      TypeMember.Sorted (.construct loc signature)
  | index (loc : Loc) (key : Text) {keyType valueType : TypeExpr}
      (sortedKey : TypeExpr.Sorted keyType) (sortedValue : TypeExpr.Sorted valueType) :
      TypeMember.Sorted (.index loc key keyType valueType)

end

/-! ## Interfaces and classes -/

/-- a sorted reference -/
def TypeExpr.SortedReference (t : TypeExpr) : Prop := t.Sorted ∧ t.IsReference

structure InterfaceDecl.Sorted (decl : InterfaceDecl) : Prop where
  typeParams : ∀ p ∈ decl.typeParams, p.Sorted
  bases : ∀ t ∈ decl.bases, t.SortedReference
  members : ∀ m ∈ decl.members, m.Sorted

inductive ClassMember.Sorted : ClassMember → Prop
  | initializer (loc : Loc) {params : List Param} (accessibility : Option Text)
      (sorted : ∀ p ∈ params, p.Sorted) : ClassMember.Sorted (.initializer loc params accessibility)
  | method (loc : Loc) (name : Text) {signature : Signature} (optional static : Bool)
      (accessibility : Option Text) (sorted : signature.Sorted) :
      ClassMember.Sorted (.method loc name signature optional static accessibility)
  | field (loc : Loc) (name : Text) {type : Option TypeExpr} (optional static : Bool)
      (accessibility : Option Text) (sorted : ∀ t ∈ type, t.Sorted) :
      ClassMember.Sorted (.field loc name type optional static accessibility)
  | index (loc : Loc) {signature : TypeMember} (sorted : signature.Sorted)
      (isIndex : signature.IsIndex) : ClassMember.Sorted (.index loc signature)

/-! ## Declarations and files -/

mutual

inductive AmbientDecl.Sorted : AmbientDecl → Prop
  | variableDecl (loc : Loc) (name : Text) {type : Option TypeExpr}
      (sorted : ∀ t ∈ type, t.Sorted) : AmbientDecl.Sorted (.variableDecl loc name type)
  | functionDecl (loc : Loc) (name : Text) {signature : Signature} (sorted : signature.Sorted) :
      AmbientDecl.Sorted (.functionDecl loc name signature)
  | classDecl (loc : Loc) (name : Text) {typeParams : List TypeParam} {base : Option TypeExpr}
      {implements : List TypeExpr} {members : List ClassMember}
      (sortedTypeParams : ∀ p ∈ typeParams, p.Sorted)
      (sortedBase : ∀ t ∈ base, t.SortedReference)
      (sortedImplements : ∀ t ∈ implements, t.SortedReference)
      (sortedMembers : ∀ m ∈ members, m.Sorted) :
      AmbientDecl.Sorted (.classDecl loc name typeParams base implements members)
  | interfaceDecl (loc : Loc) {decl : InterfaceDecl} (sorted : decl.Sorted) :
      AmbientDecl.Sorted (.interfaceDecl loc decl)
  | enumDecl (loc : Loc) (name : Text) (members : List EnumMember) (constant : Bool) :
      AmbientDecl.Sorted (.enumDecl loc name members constant)
  | moduleDecl (loc : Loc) (path : List Text) {elements : List ModuleElement}
      (sorted : ∀ e ∈ elements, ModuleElement.Sorted e) :
      AmbientDecl.Sorted (.moduleDecl loc path elements)

/-- in a module stand bare declarations, imports and exports -/
inductive ModuleElement.Sorted : ModuleElement → Prop
  | bare (exported : Bool) {decl : AmbientDecl} (sorted : AmbientDecl.Sorted decl) :
      ModuleElement.Sorted (.mk exported (.bare decl))
  | link (exported : Bool) (link : ModuleLink) : ModuleElement.Sorted (.mk exported (.link link))

end

/-- in a file stand announced declarations, imports and exports -/
inductive Element.Sorted : Element → Prop
  | interfaceElement (loc : Loc) (exported : Bool) {decl : InterfaceDecl} (sorted : decl.Sorted) :
      Element.Sorted (.interfaceElement loc exported decl)
  | ambientElement (loc : Loc) (exported : Bool) {decl : AmbientDecl} (sorted : decl.Sorted) :
      Element.Sorted (.ambientElement loc exported decl)
  | link (link : ModuleLink) : Element.Sorted (.link link)

def SourceFile.Sorted (f : SourceFile) : Prop := ∀ e ∈ f.elements, e.Sorted

end Typings
