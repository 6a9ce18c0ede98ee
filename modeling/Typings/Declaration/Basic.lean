import Typings.Text.Position
/-!
# Declarations

What a declaration file says, each part with the place where it starts.

* `TypeExpr`, `TypeParam`, `Param`, `Signature`, `TypeMember`   types and what they are made of;
* `InterfaceDecl`      a named object type;
* `ClassMember`        what stands in a class;
* `ModuleLink`         imports and exports;
* `AmbientDecl`, `Element`, `ModuleElement`   declarations, and where they stand;
* `SourceFile`         a whole file.

Every family of parts that is told apart by its kind has a case `unknown` for a part of no kind that
belongs there.
-/

namespace Typings

/-! ## Types -/

mutual

inductive TypeExpr where
  /-- `any`, `number`, `boolean`, `string` or `void` -/
  | predefined (loc : Loc) (name : Text)
  /-- a name with type arguments -/
  | reference (loc : Loc) (name : Text) (args : List TypeExpr)
  /-- the type of a named value -/
  | query (loc : Loc) (name : Text)
  | object (loc : Loc) (members : List TypeMember)
  /-- a type with brackets behind it -/
  | array (loc : Loc) (element : TypeExpr)
  /-- parameters, an arrow and a type -/
  | function (loc : Loc) (typeParams : List TypeParam) (params : List Param) (result : TypeExpr)
  /-- the same behind `new` -/
  | construct (loc : Loc) (typeParams : List TypeParam) (params : List Param) (result : TypeExpr)
  | unknown

inductive TypeParam where
  | mk (name : Text) (bound : Option TypeExpr)

inductive Param where
  | single (loc : Loc) (name : Text) (type : Option TypeExpr) (optional : Bool)
      (accessibility : Option Text)
  /-- the parameter behind an ellipsis -/
  | rest (loc : Loc) (name : Text) (type : Option TypeExpr)

inductive Signature where
  | mk (typeParams : List TypeParam) (params : List Param) (result : Option TypeExpr)

/-- a member of an interface or an object type -/
inductive TypeMember where
  | property (loc : Loc) (name : Text) (type : Option TypeExpr) (optional : Bool)
  | method (loc : Loc) (name : Text) (signature : Signature) (optional : Bool)
  | call (loc : Loc) (signature : Signature)
  | construct (loc : Loc) (signature : Signature)
  | index (loc : Loc) (key : Text) (keyType : TypeExpr) (valueType : TypeExpr)
  | unknown

end

deriving instance Inhabited for TypeExpr, TypeParam, Param, Signature, TypeMember

namespace Signature

def typeParams : Signature → List TypeParam
  | mk typeParams _ _ => typeParams

def params : Signature → List Param
  | mk _ params _ => params

def result : Signature → Option TypeExpr
  | mk _ _ result => result

end Signature

/-! ## Interfaces and classes -/

/-- a named object type with type parameters and the types that it extends -/
structure InterfaceDecl where
  loc : Loc
  name : Text
  typeParams : List TypeParam
  bases : List TypeExpr
  members : List TypeMember
deriving Inhabited

inductive ClassMember where
  | initializer (loc : Loc) (params : List Param) (accessibility : Option Text)
  | method (loc : Loc) (name : Text) (signature : Signature) (optional static : Bool)
      (accessibility : Option Text)
  | field (loc : Loc) (name : Text) (type : Option TypeExpr) (optional static : Bool)
      (accessibility : Option Text)
  | index (loc : Loc) (signature : TypeMember)
  | unknown
deriving Inhabited

/-- a name in an enumeration, and its value as it is written -/
structure EnumMember where
  name : Text
  value : Option Text
deriving DecidableEq, Inhabited

/-! ## Imports and exports -/

/-- a name in an import or export list, and the name it gets -/
structure Binding where
  name : Text
  renamed : Option Text
deriving DecidableEq, Inhabited

inductive ModuleLink where
  /-- `import x = A.B` -/
  | importAlias (loc : Loc) (name : Text) (entity : Text) (exported : Bool)
  /-- `import x = require("m")` -/
  | importRequire (loc : Loc) (name : Text) (source : Text) (exported : Bool)
  /-- `import … from "m"` -/
  | importFrom (loc : Loc) (source : Text) (byDefault : Option Text) (wholeName : Option Text)
      (bindings : List Binding)
  | exportAssign (loc : Loc) (entity : Text)
  | exportDefault (loc : Loc) (entity : Text)
  /-- names in braces, and the module they come from -/
  | exportList (loc : Loc) (bindings : List Binding) (source : Option Text)
deriving DecidableEq, Inhabited

/-! ## Declarations and files -/

mutual

/-- a declaration of something that exists elsewhere -/
inductive AmbientDecl where
  | variableDecl (loc : Loc) (name : Text) (type : Option TypeExpr)
  | functionDecl (loc : Loc) (name : Text) (signature : Signature)
  | classDecl (loc : Loc) (name : Text) (typeParams : List TypeParam) (base : Option TypeExpr)
      (implements : List TypeExpr) (members : List ClassMember)
  | interfaceDecl (loc : Loc) (decl : InterfaceDecl)
  | enumDecl (loc : Loc) (name : Text) (members : List EnumMember) (constant : Bool)
  | moduleDecl (loc : Loc) (path : List Text) (elements : List ModuleElement)
  | unknown

/-- what stands in a file or, marked with its export, in a module -/
inductive Element where
  | interfaceElement (loc : Loc) (exported : Bool) (decl : InterfaceDecl)
  | ambientElement (loc : Loc) (exported : Bool) (decl : AmbientDecl)
  /-- a declaration without the word that announces it -/
  | bare (decl : AmbientDecl)
  | link (link : ModuleLink)
  | unknown

inductive ModuleElement where
  | mk (exported : Bool) (element : Element)

end

deriving instance Inhabited for AmbientDecl, Element, ModuleElement

structure SourceFile where
  elements : List Element
deriving Inhabited

end Typings
