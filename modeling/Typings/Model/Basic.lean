import Typings.Text.CodePoint
/-!
# The class model

What code generators are given: classes with their methods, all types by name.

* `TypeRef`        a type name with type arguments;
* `Parameter`      a name with its type;
* `Method`         a name, parameters, a rest parameter and a result;
* `ClassKind`      an interface, or a class with the constructor it may have;
* `Class`          a named class or interface with its module.

Only a class can have a constructor: `Class.make?` refuses to make an interface with one.
-/

namespace Typings

/-- a type name with type arguments -/
inductive TypeRef where
  | mk (name : Text) (args : List TypeRef)
deriving Inhabited

namespace TypeRef

def name : TypeRef → Text
  | mk name _ => name

def args : TypeRef → List TypeRef
  | mk _ args => args

def plain (name : Text) : TypeRef := mk name []

def any : TypeRef := plain "any"

def number : TypeRef := plain "number"

def boolean : TypeRef := plain "boolean"

def string : TypeRef := plain "string"

def object : TypeRef := plain "object"

/-- the array of a type, without argument if there is none -/
def arrayOf (element : Option TypeRef) : TypeRef := mk "Array" element.toList

mutual

def decEq : (s t : TypeRef) → Decidable (s = t)
  | mk n as, mk m bs =>
    if h : n = m then
      match decEqAll as bs with
      | isTrue g => isTrue (by rw [h, g])
      | isFalse g => isFalse fun e => g (by cases e; rfl)
    else isFalse fun e => h (by cases e; rfl)

def decEqAll : (ss ts : List TypeRef) → Decidable (ss = ts)
  | [], [] => isTrue rfl
  | [], _ :: _ => isFalse nofun
  | _ :: _, [] => isFalse nofun
  | s :: ss, t :: ts =>
    match decEq s t with
    | isTrue h =>
      match decEqAll ss ts with
      | isTrue g => isTrue (by rw [h, g])
      | isFalse g => isFalse fun e => g (by cases e; rfl)
    | isFalse h => isFalse fun e => h (by cases e; rfl)

end

instance : DecidableEq TypeRef := decEq

end TypeRef

structure Parameter where
  name : Text
  type : TypeRef
deriving DecidableEq, Inhabited

structure Method where
  name : Text
  params : List Parameter
  rest : Option Parameter
  result : Option TypeRef
deriving DecidableEq, Inhabited

/-- an interface, or a class with the constructor it may have -/
inductive ClassKind where
  | interface
  | withConstructor (initializer : Option Method)
deriving DecidableEq, Inhabited

namespace ClassKind

def word : ClassKind → String
  | interface => "interface"
  | withConstructor _ => "class"

def initializer? : ClassKind → Option Method
  | interface => none
  | withConstructor initializer => initializer

end ClassKind

structure Class where
  name : Text
  moduleName : Option Text
  exported : Bool
  kind : ClassKind
  methods : List Method
deriving DecidableEq, Inhabited

namespace Class

inductive Fault where
  /-- an interface cannot have a constructor -/
  | interfaceWithConstructor (name : Text)
deriving DecidableEq

def Fault.message : Fault → Text
  | interfaceWithConstructor name => "interface '" ++ name ++ "' cannot carry a constructor"

/-- a class of its parts, if they go together -/
def make? (name : Text) (moduleName : Option Text) (exported isInterface : Bool)
    (initializer : Option Method) (methods : List Method) : Except Fault Class :=
  if isInterface then
    match initializer with
    | none => .ok ⟨name, moduleName, exported, .interface, methods⟩
    | some _ => .error (.interfaceWithConstructor name)
  else .ok ⟨name, moduleName, exported, .withConstructor initializer, methods⟩

/-- the name behind the module it stands in -/
def qualifiedName (c : Class) : Text :=
  match c.moduleName with
  | none | some [] => c.name
  | some m => m ++ "." ++ c.name

end Class

end Typings
