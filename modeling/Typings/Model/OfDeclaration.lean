import Typings.Declaration.Basic
import Typings.Model.Basic
/-!
# The class model of declarations

Interfaces and classes become classes of the model, wherever they stand; all other declarations are
left out.  A type without a form in the model is left out too, or replaced: a parameter without a
type is a string.

* `TypeRef.ofType?`, `TypeRef.ofParam`          types;
* `Param.split`, `Method.ofSignature`           methods;
* `Class.ofInterface`, `Class.ofClass`          classes;
* `Lowered`                                     warnings and classes;
* `AmbientDecl.lower?`, `SourceFile.lower`      declarations and files.
-/

namespace Typings

/-! ## Types -/

/-- the types of the language that the model has as well -/
def TypeRef.predefined : List (Text × TypeRef) := [
  ("any", .any), ("number", .number), ("boolean", .boolean), ("string", .string)]

mutual

/-- a type in the model.  There is none for `void`, for function types and for the type of a value;
type arguments without a form in the model are left out. -/
def TypeRef.ofType? : TypeExpr → Option TypeRef
  | .predefined _ name => TypeRef.predefined.lookup name
  | .reference _ name args => some (.mk name (TypeRef.ofTypes args))
  | .object _ _ => some .object
  | .array _ element => some (.arrayOf (TypeRef.ofType? element))
  | .query .. | .function .. | .construct .. | .unknown => none

def TypeRef.ofTypes : List TypeExpr → List TypeRef
  | [] => []
  | t :: rest => (TypeRef.ofType? t).toList ++ TypeRef.ofTypes rest

end

def TypeRef.ofOption? (t : Option TypeExpr) : Option TypeRef := t.bind TypeRef.ofType?

/-- the type of a parameter; a string if there is none -/
def TypeRef.ofParam (t : Option TypeExpr) : TypeRef := (TypeRef.ofOption? t).getD .string

/-! ## Methods -/

namespace Param

def name : Param → Text
  | single _ name _ _ _ | rest _ name _ => name

def type : Param → Option TypeExpr
  | single _ _ type _ _ | rest _ _ type => type

def isRest : Param → Bool
  | single .. => false
  | rest .. => true

/-- the parameters of other kinds, and the first rest parameter -/
def split (params : List Param) : List Param × Option Param :=
  (params.filter (!·.isRest), params.find? isRest)

def lower (p : Param) : Parameter := ⟨p.name, TypeRef.ofParam p.type⟩

end Param

namespace Method

def ofSignature (name : Text) (params : List Param) (result : Option TypeExpr) : Method where
  name := name
  params := (Param.split params).1.map Param.lower
  rest := (Param.split params).2.map Param.lower
  result := TypeRef.ofOption? result

/-- the method of an interface member; only methods have one -/
def ofMember? : TypeMember → Option Method
  | .method _ name signature _ => some (ofSignature name signature.params signature.result)
  | .property .. | .call .. | .construct .. | .index .. | .unknown => none

/-- the method of a class member; only methods have one -/
def ofClassMember? : ClassMember → Option Method
  | .method _ name signature _ _ _ => some (ofSignature name signature.params signature.result)
  | .initializer .. | .field .. | .index .. | .unknown => none

/-- the constructor of a class member; only constructors have one -/
def ofInitializer? : ClassMember → Option Method
  | .initializer _ params _ => some (ofSignature "constructor" params none)
  | .method .. | .field .. | .index .. | .unknown => none

end Method

/-! ## Classes -/

inductive Warning where
  /-- a class with more than one constructor: the first is taken -/
  | tooManyConstructors
deriving DecidableEq

def Warning.message : Warning → String
  | tooManyConstructors => "Too many constructors"

structure Lowered where
  warnings : List Warning := []
  classes : List Class := []
deriving DecidableEq

namespace Lowered

instance : Append Lowered := ⟨fun a b => ⟨a.warnings ++ b.warnings, a.classes ++ b.classes⟩⟩

def concat (parts : List Lowered) : Lowered :=
  ⟨parts.flatMap (·.warnings), parts.flatMap (·.classes)⟩

end Lowered

namespace Class

def ofInterface (decl : InterfaceDecl) (exported : Bool) : Class where
  name := decl.name
  moduleName := none
  exported := exported
  kind := .interface
  methods := decl.members.filterMap Method.ofMember?

/-- the class of a class declaration: it is always exported -/
def ofClass (name : Text) (members : List ClassMember) : Class where
  name := name
  moduleName := none
  exported := true
  kind := .withConstructor (members.filterMap Method.ofInitializer?).head?
  methods := members.filterMap Method.ofClassMember?

def warnings (members : List ClassMember) : List Warning :=
  if (members.filterMap Method.ofInitializer?).length > 1 then [.tooManyConstructors] else []

/-- the name of the module that a path leads to; none for the empty path -/
def modulePath? (path : List Text) : Option Text :=
  if path.isEmpty then none else some (Text.join "." path)

/-- the class with one more module around it; names that are missing or empty do not count -/
def within (module : Option Text) (c : Class) : Class :=
  let segments := [module, c.moduleName].filterMap fun s => s.filter fun t => !t.isEmpty
  { c with moduleName := modulePath? segments }

end Class

/-! ## Declarations -/

mutual

/-- the warnings and classes of a declaration; none for a kind without classes -/
def AmbientDecl.lower? (exported : Bool) : AmbientDecl → Option Lowered
  | .classDecl _ name _ _ _ members => some ⟨Class.warnings members, [Class.ofClass name members]⟩
  | .interfaceDecl _ decl => some ⟨[], [Class.ofInterface decl exported]⟩
  | .moduleDecl _ path elements =>
    let inner := ModuleElement.lowerAll elements
    some ⟨inner.warnings, inner.classes.map (Class.within (Class.modulePath? path))⟩
  | .variableDecl .. | .functionDecl .. | .enumDecl .. | .unknown => none

/-- the warnings and classes of the elements of a module; only a declaration without the word that
announces it counts -/
def ModuleElement.lowerAll : List ModuleElement → Lowered
  | [] => {}
  | .mk exported element :: rest =>
    match element with
    | .bare decl => ((AmbientDecl.lower? exported decl).getD {}) ++ ModuleElement.lowerAll rest
    | .interfaceElement .. | .ambientElement .. | .link _ | .unknown => ModuleElement.lowerAll rest

end

/-- the warnings and classes of an element of a file; a bare declaration does not count -/
def Element.lower : Element → Lowered
  | .interfaceElement _ exported decl => ⟨[], [Class.ofInterface decl exported]⟩
  | .ambientElement _ exported decl => (AmbientDecl.lower? exported decl).getD {}
  | .bare _ | .link _ | .unknown => {}

def SourceFile.lower (f : SourceFile) : Lowered := Lowered.concat (f.elements.map Element.lower)

end Typings
