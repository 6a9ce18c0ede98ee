import Typings.Json.Value
import Typings.Model.Basic
/-!
# The class model in words and as structured values

* `TypeRef.render`, `Parameter.render`, `Method.render`, `Class.render`     one class on some lines;
* `Class.listing`                                                        the lines of all classes;
* `TypeRef.toJson`, `Method.toJson`, `Class.toJson`                      structured values.
-/

namespace Typings

namespace TypeRef

mutual

def render : TypeRef → Text
  | mk name [] => name
  | mk name (arg :: args) => name ++ "<" ++ arg.render ++ renderRest args ++ ">"

/-- the further type arguments -/
def renderRest : List TypeRef → Text
  | [] => []
  | arg :: args => ", " ++ arg.render ++ renderRest args

end

mutual

def toJson : TypeRef → Json
  | mk name args => .object [("name", .text name), ("args", .array (toJsonAll args))]

def toJsonAll : List TypeRef → List Json
  | [] => []
  | arg :: args => arg.toJson :: toJsonAll args

end

end TypeRef

namespace Parameter

def render (p : Parameter) : Text := p.name ++ ": " ++ p.type.render

def toJson (p : Parameter) : Json := .object [("name", .text p.name), ("type", p.type.toJson)]

end Parameter

namespace Method

def render (m : Method) : Text :=
  m.name ++ "(" ++
    Text.join ", " (m.params.map Parameter.render ++
      m.rest.toList.map fun p => Text.ofString "..." ++ p.render) ++ ")" ++
    (match m.result with
      | none => []
      | some t => ": " ++ t.render)

def toJson (m : Method) : Json :=
  .object [
    ("name", .text m.name),
    ("params", .array (m.params.map Parameter.toJson)),
    ("rest", .ofOption Parameter.toJson m.rest),
    ("return_type", .ofOption TypeRef.toJson m.result)]

end Method

namespace Class

def heading (c : Class) : Text :=
  (if c.exported then Text.ofString "export " else []) ++ c.kind.word ++ " " ++ c.qualifiedName

/-- a heading, and below it the constructor and the methods -/
def render (c : Class) : Text :=
  Text.join "\n" (c.heading ::
    (c.kind.initializer?.toList ++ c.methods).map fun m => Text.ofString "  " ++ m.render)

def listing (classes : List Class) : Text := Text.join "\n" (classes.map render)

def toJson (c : Class) : Json :=
  .object [
    ("name", .text c.name),
    ("module_name", .ofOption .text c.moduleName),
    ("exported", .bool c.exported),
    ("tag", .text c.kind.word),
    ("constructor", .ofOption Method.toJson c.kind.initializer?),
    ("methods", .array (c.methods.map Method.toJson))]

end Class

end Typings
