import Typings.Declaration.Basic
import Typings.Text.Blank
import Typings.Text.Quoted
/-!
# Declarations in words

Types and members are written on one line, as they can be read back.  Declarations are outlined: a
heading for each, and the members of interfaces, classes and modules below it, indented.

* `TypeExpr.render`, `TypeParam.renderList`, `Param.render`, `Signature.render`, `TypeMember.render`;
* `ClassMember.render`;
* `InterfaceDecl.outline`, `AmbientDecl.outline`, `Element.outline`     lists of lines;
* `SourceFile.render`                                                   all lines of a file.
-/

namespace Typings

/-- a text if a mark is set, else nothing -/
def Text.when (mark : Bool) (t : Text) : Text := if mark then t else []

/-- a text and a blank behind it, nothing for the empty text -/
def Text.spaced (t : Option Text) : Text :=
  match t with
  | none | some [] => []
  | some t => t ++ " "

/-- a text behind another one, nothing if it is missing -/
def Text.behind (mark : Text) : Option Text → Text
  | none => []
  | some t => mark ++ t

/-! ## Types -/

/-- the parameters of a function and its result -/
def Text.arrow (typeParams params result : Text) : Text :=
  typeParams ++ "(" ++ params ++ ") => " ++ result

def Text.braced (members : Text) : Text :=
  if members.isEmpty then "\x7b\x7d" else "\x7b " ++ members ++ " \x7d"

/-- parts in angle brackets, nothing if there is none -/
def Text.angled (parts : List Text) : Text :=
  if parts.isEmpty then [] else "<" ++ Text.join ", " parts ++ ">"

mutual

def TypeExpr.render : TypeExpr → Text
  | .predefined _ name => name
  | .reference _ name args => name ++ Text.angled (TypeExpr.renderAll args)
  | .query _ name => "typeof " ++ name
  | .object _ members => Text.braced (Text.join "; " (TypeMember.renderAll members))
  | .array _ element => element.render ++ "[]"
  | .function _ typeParams params result =>
    Text.arrow (Text.angled (TypeParam.renderAll typeParams)) (Text.join ", " (Param.renderAll params))
      result.render
  | .construct _ typeParams params result =>
    "new " ++ Text.arrow (Text.angled (TypeParam.renderAll typeParams))
      (Text.join ", " (Param.renderAll params)) result.render
  | .unknown => "<invalid type>"

def TypeExpr.renderAll : List TypeExpr → List Text
  | [] => []
  | t :: rest => t.render :: TypeExpr.renderAll rest

def TypeExpr.render? : Option TypeExpr → Option Text
  | none => none
  | some t => some t.render

def TypeParam.render : TypeParam → Text
  | .mk name bound => name ++ Text.behind " extends " (TypeExpr.render? bound)

def TypeParam.renderAll : List TypeParam → List Text
  | [] => []
  | p :: rest => p.render :: TypeParam.renderAll rest

def Param.render : Param → Text
  | .single _ name type optional accessibility =>
    Text.spaced accessibility ++ name ++ Text.when optional "?" ++
      Text.behind ": " (TypeExpr.render? type)
  | .rest _ name type => "..." ++ name ++ Text.behind ": " (TypeExpr.render? type)

def Param.renderAll : List Param → List Text
  | [] => []
  | p :: rest => p.render :: Param.renderAll rest

def Signature.render : Signature → Text
  | .mk typeParams params result =>
    Text.angled (TypeParam.renderAll typeParams) ++ "(" ++ Text.join ", " (Param.renderAll params) ++
      ")" ++ Text.behind ": " (TypeExpr.render? result)

def TypeMember.render : TypeMember → Text
  | .property _ name type optional =>
    name ++ Text.when optional "?" ++ Text.behind ": " (TypeExpr.render? type)
  | .method _ name signature optional => name ++ Text.when optional "?" ++ signature.render
  | .call _ signature => signature.render
  | .construct _ signature => "new " ++ signature.render
  | .index _ key keyType valueType =>
    "[" ++ key ++ ": " ++ keyType.render ++ "]: " ++ valueType.render
  | .unknown => "<invalid member>"

def TypeMember.renderAll : List TypeMember → List Text
  | [] => []
  | m :: rest => m.render :: TypeMember.renderAll rest

end

/-- a type, with words for a missing one -/
def TypeExpr.renderOption (t : Option TypeExpr) : Text := (TypeExpr.render? t).getD "<none>"

def TypeParam.renderList (ps : List TypeParam) : Text := Text.angled (TypeParam.renderAll ps)

def Param.renderList (ps : List Param) : Text := Text.join ", " (Param.renderAll ps)

/-! ## Members of classes -/

def ClassMember.marks (accessibility : Option Text) (static : Bool) : Text :=
  Text.spaced accessibility ++ Text.when static "static "

def ClassMember.render : ClassMember → Text
  | .initializer _ params accessibility =>
    ClassMember.marks accessibility false ++ "constructor(" ++ Param.renderList params ++ ")"
  | .method _ name signature optional static accessibility =>
    ClassMember.marks accessibility static ++ name ++ Text.when optional "?" ++ signature.render
  | .field _ name type optional static accessibility =>
    ClassMember.marks accessibility static ++ name ++ Text.when optional "?" ++
      Text.behind ": " (TypeExpr.render? type)
  | .index _ signature => signature.render
  | .unknown => "<invalid member>"

/-! ## Declarations -/

def Text.clause (word : Text) (types : List TypeExpr) : Text :=
  if types.isEmpty then [] else word ++ Text.join ", " (TypeExpr.renderAll types)

def Text.declared (indent : Text) (exported : Bool) : Text :=
  indent ++ Text.when exported "export " ++ "declare "

def InterfaceDecl.heading (decl : InterfaceDecl) (indent : Text) : Text :=
  indent ++ "interface " ++ decl.name ++ TypeParam.renderList decl.typeParams ++
    Text.clause " extends " decl.bases

def InterfaceDecl.body (decl : InterfaceDecl) (indent : Text) : List Text :=
  decl.members.map fun m => indent ++ "  " ++ m.render

def InterfaceDecl.outline (decl : InterfaceDecl) (indent : Text) : List Text :=
  decl.heading indent :: decl.body indent

/-- an interface with words in front of its heading, which loses the white space at its front -/
def InterfaceDecl.outlineBehind (words : Text) (decl : InterfaceDecl) (indent : Text) : List Text :=
  (words ++ Text.trimStart (decl.heading indent)) :: decl.body indent

def EnumMember.render (m : EnumMember) : Text := m.name ++ Text.behind " = " m.value

def Binding.render (b : Binding) : Text := b.name ++ Text.behind " as " b.renamed

/-- an import or an export; of an import from a module only the module is shown -/
def ModuleLink.render : ModuleLink → Text
  | .importAlias _ name entity _ => "import " ++ name ++ " = " ++ entity
  | .importRequire _ name source _ =>
    "import " ++ name ++ " = require(" ++ Quoted.encode source ++ ")"
  | .importFrom _ source _ _ _ => "import from " ++ Quoted.encode source
  | .exportAssign _ entity => "export = " ++ entity
  | .exportDefault _ entity => "export default " ++ entity
  | .exportList _ bindings _ =>
    "export \x7b " ++ Text.join ", " (bindings.map Binding.render) ++ " \x7d"

mutual

def AmbientDecl.outline (indent : Text) (exported : Bool) : AmbientDecl → List Text
  | .variableDecl _ name type =>
    [Text.declared indent exported ++ "var " ++ name ++ Text.behind ": " (TypeExpr.render? type)]
  | .functionDecl _ name signature =>
    [Text.declared indent exported ++ "function " ++ name ++ signature.render]
  | .classDecl _ name typeParams base implements members =>
    (Text.declared indent exported ++ "class " ++ name ++ TypeParam.renderList typeParams ++
        Text.behind " extends " (TypeExpr.render? base) ++ Text.clause " implements " implements) ::
      members.map fun m => indent ++ "  " ++ m.render
  | .interfaceDecl _ decl => decl.outlineBehind (Text.declared indent exported) indent
  | .enumDecl _ name members constant =>
    [Text.declared indent exported ++ Text.when constant "const " ++ "enum " ++ name ++ " \x7b " ++
      Text.join ", " (members.map EnumMember.render) ++ " \x7d"]
  | .moduleDecl _ path elements =>
    (Text.declared indent exported ++ "module " ++ Text.join "." path) ::
      ModuleElement.outlineAll (indent ++ "  ") elements
  | .unknown => [indent ++ "<invalid ambient declaration>"]

def Element.outline (indent : Text) (exported : Bool) : Element → List Text
  | .interfaceElement _ exported decl =>
    if exported then decl.outlineBehind (indent ++ "export ") indent else decl.outline indent
  | .ambientElement _ exported decl => AmbientDecl.outline indent exported decl
  | .bare decl => AmbientDecl.outline indent exported decl
  | .link link => [indent ++ link.render]
  | .unknown => [indent ++ "<invalid declaration>"]

def ModuleElement.outlineAll (indent : Text) : List ModuleElement → List Text
  | [] => []
  | .mk exported element :: rest =>
    Element.outline indent exported element ++ ModuleElement.outlineAll indent rest

end

def SourceFile.render (f : SourceFile) : Text :=
  Text.join "\n" (f.elements.flatMap (Element.outline [] false))

end Typings
