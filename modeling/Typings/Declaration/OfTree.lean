import Typings.Declaration.Basic
import Typings.Syntax.Tree
import Typings.Text.Literal
/-!
# Declarations of a syntax tree

The declarations are read off the tree by looking at the children of each node: the first child of a
phrase, the first token of a class.  What is looked for is what the grammar puts there; a tree made
in another way may lack it.

* `BuildError`             what a tree lacks, or what of it cannot be read;
* `BuildError.message`     the same in words;
* `TypeExpr.ofTree`        the type of a tree;
* `AmbientDecl.ofTree`     the declaration of a tree;
* `SourceFile.ofTree`      the file of a tree.

Parts are read in a fixed order, and the first error in this order is the one that is found.
-/

namespace Typings

/-! ## Errors -/

/-- the families of parts that are told apart by their label -/
inductive Family where
  | ambientDecl
  | classMember
  | moduleElement
  | typeMember
  | typeExpr
deriving DecidableEq

/-- what is wrong with a row of children from which one is taken -/
inductive Lack where
  /-- no child is of the kind that is looked for -/
  | kind
  | first
  /-- a node stands first, in the place of a token -/
  | token
deriving DecidableEq

/-- why a tree cannot be read -/
inductive BuildError where
  | missingPart (label : Label) (part : Nonterminal) (loc : Loc)
  | missingToken (label : Label) (kind : Terminal) (loc : Loc)
  /-- a node stands where its label does not belong -/
  | unsupported (family : Family) (label : Label) (loc : Loc)
  | missingResult (label : Label) (loc : Loc)
  | missingValueType (loc : Loc)
  | badLiteral (text : Text) (fault : BadLiteral) (loc : Loc)
  /-- a node has not the child at a place that is never empty -/
  | incomplete (lack : Lack) (label : Label) (loc : Loc)
deriving DecidableEq

namespace Family

def name : Family → String
  | ambientDecl => "ambient declaration"
  | classMember => "class member"
  | moduleElement => "module element"
  | typeMember => "type member"
  | typeExpr => "type node"

end Family

namespace BuildError

def loc : BuildError → Loc
  | missingPart _ _ loc | missingToken _ _ loc | unsupported _ _ loc | missingResult _ loc
  | missingValueType loc | badLiteral _ _ loc | incomplete _ _ loc => loc

def message : BuildError → Text
  | missingPart label part _ => label.name ++ " missing " ++ (Label.phrase part).name
  | missingToken label kind _ => label.name ++ " missing " ++ kind.name
  | unsupported family label _ => "unsupported " ++ family.name ++ ": " ++ label.name
  | missingResult label _ => label.name ++ " missing return type"
  | missingValueType _ => "index signature missing value type"
  | badLiteral text fault _ =>
    match fault.reason? with
    | some reason => "invalid string literal " ++ text ++ ": " ++ reason
    | none => "invalid string literal " ++ text
  | incomplete _ label _ => label.name ++ " is incomplete"

end BuildError

namespace Tree

/-! ## Tokens and children of a node -/

/-- the text of the first token of a class -/
def token? (kind : Terminal) : List Tree → Option Text
  | [] => none
  | .leaf k text _ :: rest => if k = some kind then some text else token? kind rest
  | .node .. :: rest => token? kind rest

/-- the text of the first token of a class, which has to be there -/
def token (label : Label) (loc : Loc) (kind : Terminal) (children : List Tree) :
    Except BuildError Text :=
  match token? kind children with
  | some text => .ok text
  | none => .error (.missingToken label kind loc)

def hasToken (kind : Terminal) (children : List Tree) : Bool := (token? kind children).isSome

def names : List Tree → List Text
  | [] => []
  | .leaf k text _ :: rest => if k = some .NAME then text :: names rest else names rest
  | .node .. :: rest => names rest

def dotted (children : List Tree) : Text := Text.join "." (names children)

/-- the first child for a phrase: its place and its children -/
def child? (part : Nonterminal) : List Tree → Option (Loc × List Tree)
  | [] => none
  | .leaf .. :: rest => child? part rest
  | .node label loc children :: rest =>
    if label = .phrase part then some (loc, children) else child? part rest

/-- the first child for a phrase, which has to be there -/
def child (label : Label) (loc : Loc) (part : Nonterminal) (children : List Tree) :
    Except BuildError (Loc × List Tree) :=
  match child? part children with
  | some found => .ok found
  | none => .error (.missingPart label part loc)

/-- the dotted name in the first child for an entity name -/
def entity (label : Label) (loc : Loc) (children : List Tree) : Except BuildError Text :=
  (child label loc .entityName children).map fun found => dotted found.2

def literal (text : Text) (loc : Loc) : Except BuildError Text :=
  match Literal.decode text with
  | .ok value => .ok value
  | .error fault => .error (.badLiteral text fault loc)

/-- the value of the first string literal, if there is one -/
def literal? : List Tree → Option (Except BuildError Text)
  | [] => none
  | .leaf k text loc :: rest => if k = some .STRING then some (literal text loc) else literal? rest
  | .node .. :: rest => literal? rest

/-- the value of the first string literal, which has to be there -/
def source (label : Label) (loc : Loc) (children : List Tree) : Except BuildError Text :=
  (literal? children).getD (.error (.missingToken label .STRING loc))

/-- the name that a token spells: the value of a string literal, any other token as it is -/
def memberName (kind : Option Terminal) (text : Text) (loc : Loc) : Except BuildError Text :=
  if kind = some .STRING then literal text loc else .ok text

/-- the first name, string literal or number, as the name of a member -/
def propertyName (label : Label) (loc : Loc) : List Tree → Except BuildError Text
  | [] => .error (.incomplete .kind label loc)
  | .leaf k text tokenLoc :: rest =>
    if k = some .NAME ∨ k = some .STRING ∨ k = some .NUMERAL then memberName k text tokenLoc
    else propertyName label loc rest
  | .node .. :: rest => propertyName label loc rest

/-- the text of the token that is the first child -/
def headText (label : Label) (loc : Loc) : List Tree → Except BuildError Text
  | .leaf _ text _ :: _ => .ok text
  | .node .. :: _ => .error (.incomplete .token label loc)
  | [] => .error (.incomplete .first label loc)

def accessibility (children : List Tree) : Except BuildError (Option Text) :=
  match child? .accessibility children with
  | none => .ok none
  | some (loc, parts) => (headText (.phrase .accessibility) loc parts).map some

end Tree

/-! ## Types -/

/-- the parts of a function type: the result is kept for later -/
structure FunctionParts where
  typeParams : List TypeParam := []
  params : List Param := []
  result : Option (Except BuildError TypeExpr) := none

/-- a function type of its parts -/
def FunctionParts.type (label : Label) (loc : Loc)
    (make : List TypeParam → List Param → TypeExpr → TypeExpr)
    (parts : Except BuildError FunctionParts) : Except BuildError TypeExpr := do
  let parts ← parts
  match parts.result with
  | none => .error (.missingResult label loc)
  | some result => do
    let result ← result
    .ok (make parts.typeParams parts.params result)

/-- a signature of its parts, the parameters before the result -/
def Signature.ofParts (heads : Except BuildError (List TypeParam × List Param))
    (result : Except BuildError (Option TypeExpr)) : Except BuildError Signature := do
  let heads ← heads
  let result ← result
  .ok (.mk heads.1 heads.2 result)

/-- an index signature of its parts, the type of the values before the type of the key -/
def TypeMember.indexOfParts (label : Label) (loc : Loc) (key : Except BuildError Text)
    (keyType : Option (Except BuildError TypeExpr))
    (valueType : Except BuildError (Option TypeExpr)) : Except BuildError TypeMember := do
  let key ← key
  match keyType with
  | none => .error (.incomplete .kind label loc)
  | some keyType =>
    match ← valueType with
    | none => .error (.missingValueType loc)
    | some valueType => do
      let keyType ← keyType
      .ok (.index loc key keyType valueType)

def Label.isType : Label → Bool
  | .phrase n =>
    n == .predefinedType || n == .typeReference || n == .typeQuery || n == .objectType ||
      n == .arrayType || n == .functionType || n == .constructorType
  | .other _ => false

mutual

def TypeExpr.ofTree : Tree → Except BuildError TypeExpr
  | .leaf _ text loc => .error (.unsupported .typeExpr (.other text) loc)
  | .node label loc children =>
    match label with
    | .phrase .predefinedType => do
      let name ← Tree.headText label loc children
      .ok (.predefined loc name)
    | .phrase .typeReference => do
      let name ← Tree.entity label loc children
      let args ← TypeExpr.argumentsIn children
      .ok (.reference loc name args)
    | .phrase .typeQuery => do
      let name ← Tree.entity label loc children
      .ok (.query loc name)
    | .phrase .objectType => do
      let members ← TypeMember.ofTrees children
      .ok (.object loc members)
    | .phrase .arrayType =>
      match TypeExpr.firstIn? children with
      | none => .error (.incomplete .kind label loc)
      | some element => do
        let element ← element
        .ok (.array loc element)
    | .phrase .functionType =>
      FunctionParts.type label loc (.function loc) (FunctionParts.ofTrees {} children)
    | .phrase .constructorType =>
      FunctionParts.type label loc (.construct loc) (FunctionParts.ofTrees {} children)
    | _ => .error (.unsupported .typeExpr label loc)

def TypeExpr.ofTrees : List Tree → Except BuildError (List TypeExpr)
  | [] => .ok []
  | .leaf .. :: rest => TypeExpr.ofTrees rest
  | .node label loc children :: rest => do
    let type ← TypeExpr.ofTree (.node label loc children)
    let types ← TypeExpr.ofTrees rest
    .ok (type :: types)

/-- the type of the first node of a row -/
def TypeExpr.firstIn? : List Tree → Option (Except BuildError TypeExpr)
  | [] => none
  | .leaf .. :: rest => TypeExpr.firstIn? rest
  | .node label loc children :: _ => some (TypeExpr.ofTree (.node label loc children))

/-- the types in the first type arguments -/
def TypeExpr.argumentsIn : List Tree → Except BuildError (List TypeExpr)
  | [] => .ok []
  | .leaf .. :: rest => TypeExpr.argumentsIn rest
  | .node label _ children :: rest =>
    if label = .phrase .typeArguments then TypeExpr.ofTrees children else TypeExpr.argumentsIn rest

/-- the type in the first annotation -/
def TypeExpr.ascriptionIn : List Tree → Except BuildError (Option TypeExpr)
  | [] => .ok none
  | .leaf .. :: rest => TypeExpr.ascriptionIn rest
  | .node label loc children :: rest =>
    if label = .phrase .ascription then
      match TypeExpr.firstIn? children with
      | none => .error (.incomplete .kind label loc)
      | some type => do
        let type ← type
        .ok (some type)
    else TypeExpr.ascriptionIn rest

/-- the first node of a row whose label is that of a type -/
def TypeExpr.keyTypeIn? : List Tree → Option (Except BuildError TypeExpr)
  | [] => none
  | .leaf .. :: rest => TypeExpr.keyTypeIn? rest
  | .node label loc children :: rest =>
    if label.isType then some (TypeExpr.ofTree (.node label loc children))
    else TypeExpr.keyTypeIn? rest

def TypeParam.ofTrees : List Tree → Except BuildError (List TypeParam)
  | [] => .ok []
  | .leaf .. :: rest => TypeParam.ofTrees rest
  | .node label loc children :: rest =>
    if label = .phrase .typeParameter then do
      let name ← Tree.token label loc .NAME children
      let bound ← match TypeExpr.firstIn? children with
        | none => .ok none
        | some type => do
          let type ← type
          .ok (some type)
      let params ← TypeParam.ofTrees rest
      .ok (.mk name bound :: params)
    else TypeParam.ofTrees rest

def Param.ofTrees : List Tree → Except BuildError (List Param)
  | [] => .ok []
  | .leaf .. :: rest => Param.ofTrees rest
  | .node label loc children :: rest => do
    let name ← Tree.token label loc .NAME children
    let type ← TypeExpr.ascriptionIn children
    let param ← if label = .phrase .restParameter then .ok (.rest loc name type) else do
      let accessibility ← Tree.accessibility children
      .ok (.single loc name type (Tree.hasToken .QMARK children) accessibility)
    let params ← Param.ofTrees rest
    .ok (param :: params)

/-- the parts of a function type in a row; what is neither type parameters nor parameters is the
result -/
def FunctionParts.ofTrees (parts : FunctionParts) : List Tree → Except BuildError FunctionParts
  | [] => .ok parts
  | .leaf .. :: rest => FunctionParts.ofTrees parts rest
  | .node label loc children :: rest =>
    if label = .phrase .typeParameters then do
      let typeParams ← TypeParam.ofTrees children
      FunctionParts.ofTrees { parts with typeParams } rest
    else if label = .phrase .parameterList then do
      let params ← Param.ofTrees children
      FunctionParts.ofTrees { parts with params } rest
    else
      FunctionParts.ofTrees { parts with result := some (TypeExpr.ofTree (.node label loc children)) }
        rest

/-- the type parameters and the parameters of a signature in a row -/
def Signature.headsIn (heads : List TypeParam × List Param) :
    List Tree → Except BuildError (List TypeParam × List Param)
  | [] => .ok heads
  | .leaf .. :: rest => Signature.headsIn heads rest
  | .node label _ children :: rest =>
    if label = .phrase .typeParameters then do
      let typeParams ← TypeParam.ofTrees children
      Signature.headsIn (typeParams, heads.2) rest
    else if label = .phrase .parameterList then do
      let params ← Param.ofTrees children
      Signature.headsIn (heads.1, params) rest
    else Signature.headsIn heads rest

/-- the first call signature in a row of children -/
def Signature.callIn (parent : Label) (parentLoc : Loc) : List Tree → Except BuildError Signature
  | [] => .error (.missingPart parent .callSignature parentLoc)
  | .leaf .. :: rest => Signature.callIn parent parentLoc rest
  | .node label _ children :: rest =>
    if label = .phrase .callSignature then
      Signature.ofParts (Signature.headsIn ([], []) children) (TypeExpr.ascriptionIn children)
    else Signature.callIn parent parentLoc rest

def TypeMember.ofTree : Tree → Except BuildError TypeMember
  | .leaf _ text loc => .error (.unsupported .typeMember (.other text) loc)
  | .node label loc children =>
    match label with
    | .phrase .propertySignature => do
      let name ← Tree.propertyName label loc children
      let type ← TypeExpr.ascriptionIn children
      .ok (.property loc name type (Tree.hasToken .QMARK children))
    | .phrase .methodSignature => do
      let name ← Tree.propertyName label loc children
      let signature ← Signature.callIn label loc children
      .ok (.method loc name signature (Tree.hasToken .QMARK children))
    | .phrase .callSignature => do
      let signature ←
        Signature.ofParts (Signature.headsIn ([], []) children) (TypeExpr.ascriptionIn children)
      .ok (.call loc signature)
    | .phrase .constructSignature => do
      let signature ←
        Signature.ofParts (Signature.headsIn ([], []) children) (TypeExpr.ascriptionIn children)
      .ok (.construct loc signature)
    | .phrase .indexSignature =>
      TypeMember.indexOfParts label loc (Tree.token label loc .NAME children)
        (TypeExpr.keyTypeIn? children) (TypeExpr.ascriptionIn children)
    | _ => .error (.unsupported .typeMember label loc)

def TypeMember.ofTrees : List Tree → Except BuildError (List TypeMember)
  | [] => .ok []
  | .leaf .. :: rest => TypeMember.ofTrees rest
  | .node label loc children :: rest => do
    let member ← TypeMember.ofTree (.node label loc children)
    let members ← TypeMember.ofTrees rest
    .ok (member :: members)

end

def TypeMember.indexOf (loc : Loc) (children : List Tree) : Except BuildError TypeMember :=
  TypeMember.indexOfParts (.phrase .indexSignature) loc
    (Tree.token (.phrase .indexSignature) loc .NAME children) (TypeExpr.keyTypeIn? children)
    (TypeExpr.ascriptionIn children)

/-! ## Interfaces and classes -/

/-- an interface with the parts of a row of children added -/
def InterfaceDecl.addTrees (decl : InterfaceDecl) : List Tree → Except BuildError InterfaceDecl
  | [] => .ok decl
  | .leaf .. :: rest => decl.addTrees rest
  | .node label _ children :: rest =>
    if label = .phrase .typeParameters then do
      let typeParams ← TypeParam.ofTrees children
      InterfaceDecl.addTrees { decl with typeParams } rest
    else if label = .phrase .interfaceExtends then do
      let bases ← TypeExpr.ofTrees children
      InterfaceDecl.addTrees { decl with bases } rest
    else if label = .phrase .objectType then do
      let members ← TypeMember.ofTrees children
      InterfaceDecl.addTrees { decl with members } rest
    else decl.addTrees rest

def InterfaceDecl.ofChildren (loc : Loc) (children : List Tree) : Except BuildError InterfaceDecl := do
  let name ← Tree.token (.phrase .interfaceDeclaration) loc .NAME children
  InterfaceDecl.addTrees ⟨loc, name, [], [], []⟩ children

def ClassMember.ofNode (label : Label) (loc : Loc) (children : List Tree) :
    Except BuildError ClassMember := do
  let accessibility ← Tree.accessibility children
  match label with
  | .phrase .constructorDeclaration => do
    let params ← match Tree.child? .parameterList children with
      | none => .ok []
      | some found => Param.ofTrees found.2
    .ok (.initializer loc params accessibility)
  | .phrase .memberFunction => do
    let name ← Tree.propertyName label loc children
    let signature ← Signature.callIn label loc children
    .ok (.method loc name signature (Tree.hasToken .QMARK children)
      (Tree.hasToken .STATIC children) accessibility)
  | .phrase .memberVariable => do
    let name ← Tree.propertyName label loc children
    let type ← TypeExpr.ascriptionIn children
    .ok (.field loc name type (Tree.hasToken .QMARK children) (Tree.hasToken .STATIC children)
      accessibility)
  | .phrase .indexMember => do
    let found ← Tree.child label loc .indexSignature children
    let signature ← TypeMember.indexOf found.1 found.2
    .ok (.index loc signature)
  | _ => .error (.unsupported .classMember label loc)

structure ClassParts where
  typeParams : List TypeParam := []
  base : Option TypeExpr := none
  implements : List TypeExpr := []
  members : List ClassMember := []

/-- the type that a class extends, in the first type reference behind `extends` -/
def TypeExpr.baseIn (loc : Loc) : List Tree → Except BuildError TypeExpr
  | [] => .error (.missingPart (.phrase .classExtends) .typeReference loc)
  | .leaf .. :: rest => TypeExpr.baseIn loc rest
  | .node label childLoc children :: rest =>
    if label = .phrase .typeReference then TypeExpr.ofTree (.node label childLoc children)
    else TypeExpr.baseIn loc rest

/-- the parts of a class with those of a row of children added -/
def ClassParts.addTrees (parts : ClassParts) : List Tree → Except BuildError ClassParts
  | [] => .ok parts
  | .leaf .. :: rest => parts.addTrees rest
  | .node label loc children :: rest =>
    if label = .phrase .typeParameters then do
      let typeParams ← TypeParam.ofTrees children
      ClassParts.addTrees { parts with typeParams } rest
    else if label = .phrase .classExtends then do
      let base ← TypeExpr.baseIn loc children
      ClassParts.addTrees { parts with base := some base } rest
    else if label = .phrase .classImplements then do
      let implements ← TypeExpr.ofTrees children
      ClassParts.addTrees { parts with implements } rest
    else do
      let member ← ClassMember.ofNode label loc children
      ClassParts.addTrees { parts with members := parts.members ++ [member] } rest

/-- the tokens of a row: class, text and place -/
def Tree.tokens : List Tree → List (Option Terminal × Text × Loc)
  | [] => []
  | .leaf k text loc :: rest => (k, text, loc) :: Tree.tokens rest
  | .node .. :: rest => Tree.tokens rest

/-- the members of an enumeration: the first token of each is its name, the second its value -/
def EnumMember.ofTrees : List Tree → Except BuildError (List EnumMember)
  | [] => .ok []
  | .leaf .. :: rest => EnumMember.ofTrees rest
  | .node label loc children :: rest =>
    if label = .phrase .enumMember then
      match Tree.tokens children with
      | [] => .error (.incomplete .first label loc)
      | (kind, text, tokenLoc) :: more => do
        let name ← Tree.memberName kind text tokenLoc
        let members ← EnumMember.ofTrees rest
        .ok (⟨name, more.head?.map (·.2.1)⟩ :: members)
    else EnumMember.ofTrees rest

/-! ## Imports and exports -/

/-- the bindings of a row: the first name of each is bound, the second is its new name -/
def Binding.ofTrees : List Tree → Except BuildError (List Binding)
  | [] => .ok []
  | .leaf .. :: rest => Binding.ofTrees rest
  | .node label loc children :: rest =>
    if label = .phrase .binding then
      match Tree.names children with
      | [] => .error (.incomplete .first label loc)
      | name :: more => do
        let bindings ← Binding.ofTrees rest
        .ok (⟨name, more.head?⟩ :: bindings)
    else Binding.ofTrees rest

structure ImportParts where
  byDefault : Option Text := none
  wholeName : Option Text := none
  bindings : List Binding := []

/-- what an import names, with the clauses of a row added -/
def ImportParts.addTrees (parts : ImportParts) : List Tree → Except BuildError ImportParts
  | [] => .ok parts
  | .leaf .. :: rest => parts.addTrees rest
  | .node label loc children :: rest =>
    match label with
    | .phrase .importClause => do
      let parts ← parts.addTrees children
      parts.addTrees rest
    | .phrase .defaultBinding => do
      let name ← Tree.token label loc .NAME children
      ImportParts.addTrees { parts with byDefault := some name } rest
    | .phrase .namespaceBinding => do
      let name ← Tree.token label loc .NAME children
      ImportParts.addTrees { parts with wholeName := some name } rest
    | .phrase .namedBindings => do
      let bindings ← Binding.ofTrees children
      ImportParts.addTrees { parts with bindings } rest
    | _ => parts.addTrees rest

/-- the import or export of a node; none if the label is that of neither -/
def ModuleLink.ofNode? (label : Label) (loc : Loc) (children : List Tree) :
    Except BuildError (Option ModuleLink) :=
  match label with
  | .phrase .importAlias => do
    let name ← Tree.token label loc .NAME children
    let entity ← Tree.entity label loc children
    .ok (some (.importAlias loc name entity (Tree.hasToken .EXPORT children)))
  | .phrase .externalImport => do
    let name ← Tree.token label loc .NAME children
    let source ← Tree.source label loc children
    .ok (some (.importRequire loc name source (Tree.hasToken .EXPORT children)))
  | .phrase .moduleImport => do
    let source ← Tree.source label loc children
    let parts ← ImportParts.addTrees {} children
    .ok (some (.importFrom loc source parts.byDefault parts.wholeName parts.bindings))
  | .phrase .exportAssignment => do
    let entity ← Tree.entity label loc children
    .ok (some (.exportAssign loc entity))
  | .phrase .exportDefault => do
    let entity ← Tree.entity label loc children
    .ok (some (.exportDefault loc entity))
  | .phrase .exportList => do
    let found ← Tree.child label loc .namedBindings children
    let bindings ← Binding.ofTrees found.2
    let source ← match Tree.literal? children with
      | none => .ok none
      | some value => do
        let value ← value
        .ok (some value)
    .ok (some (.exportList loc bindings source))
  | _ => .ok none

/-- the export mark of an import; an export has none -/
def ModuleLink.exported : ModuleLink → Bool
  | .importAlias _ _ _ exported | .importRequire _ _ _ exported => exported
  | .importFrom .. | .exportAssign .. | .exportDefault .. | .exportList .. => false

/-! ## Declarations -/

/-- the names and the decoded string literals of a module name -/
def Tree.path : List Tree → Except BuildError (List Text)
  | [] => .ok []
  | .leaf k text loc :: rest =>
    if k = some .STRING then do
      let segment ← Tree.literal text loc
      let segments ← Tree.path rest
      .ok (segment :: segments)
    else if k = some .NAME then do
      let segments ← Tree.path rest
      .ok (text :: segments)
    else Tree.path rest
  | .node .. :: rest => Tree.path rest

mutual

def AmbientDecl.ofTree : Tree → Except BuildError AmbientDecl
  | .leaf _ text loc => .error (.unsupported .ambientDecl (.other text) loc)
  | .node label loc children =>
    match label with
    | .phrase .ambientVar => do
      let name ← Tree.token label loc .NAME children
      let type ← TypeExpr.ascriptionIn children
      .ok (.variableDecl loc name type)
    | .phrase .ambientFunction => do
      let name ← Tree.token label loc .NAME children
      let signature ← Signature.callIn label loc children
      .ok (.functionDecl loc name signature)
    | .phrase .ambientClass => do
      let name ← Tree.token label loc .NAME children
      let parts ← ClassParts.addTrees {} children
      .ok (.classDecl loc name parts.typeParams parts.base parts.implements parts.members)
    | .phrase .ambientInterface => do
      let found ← Tree.child label loc .interfaceDeclaration children
      let decl ← InterfaceDecl.ofChildren found.1 found.2
      .ok (.interfaceDecl loc decl)
    | .phrase .ambientEnum => do
      let name ← Tree.token label loc .NAME children
      let members ← EnumMember.ofTrees children
      .ok (.enumDecl loc name members (Tree.hasToken .CONST children))
    | .phrase .ambientModule => do
      let found ← Tree.child label loc .moduleName children
      let path ← Tree.path found.2
      let elements ← ModuleElement.ofTrees true children
      .ok (.moduleDecl loc path elements)
    | _ => .error (.unsupported .ambientDecl label loc)

def AmbientDecl.firstIn? : List Tree → Option (Except BuildError AmbientDecl)
  | [] => none
  | .leaf .. :: rest => AmbientDecl.firstIn? rest
  | .node label loc children :: _ => some (AmbientDecl.ofTree (.node label loc children))

/-- the elements of a module: all nodes of a row but the first module name -/
def ModuleElement.ofTrees (skipName : Bool) : List Tree → Except BuildError (List ModuleElement)
  | [] => .ok []
  | .leaf .. :: rest => ModuleElement.ofTrees skipName rest
  | .node label loc children :: rest =>
    if skipName = true ∧ label = .phrase .moduleName then ModuleElement.ofTrees false rest
    else if label = .phrase .moduleAmbientElement then
      match AmbientDecl.firstIn? children with
      | none => .error (.incomplete .kind label loc)
      | some decl => do
        let decl ← decl
        let elements ← ModuleElement.ofTrees skipName rest
        .ok (.mk (Tree.hasToken .EXPORT children) (.bare decl) :: elements)
    else do
      match ← ModuleLink.ofNode? label loc children with
      | none => .error (.unsupported .moduleElement label loc)
      | some link => do
        let elements ← ModuleElement.ofTrees skipName rest
        .ok (.mk link.exported (.link link) :: elements)

end

/-- the element of a node; none if the node is no element of a file -/
def Element.ofNode? (label : Label) (loc : Loc) (children : List Tree) :
    Except BuildError (Option Element) :=
  match label with
  | .phrase .interfaceElement => do
    let found ← Tree.child label loc .interfaceDeclaration children
    let decl ← InterfaceDecl.ofChildren found.1 found.2
    .ok (some (.interfaceElement loc (Tree.hasToken .EXPORT children) decl))
  | .phrase .ambientElement =>
    match AmbientDecl.firstIn? children with
    | none => .error (.incomplete .kind label loc)
    | some decl => do
      let decl ← decl
      .ok (some (.ambientElement loc (Tree.hasToken .EXPORT children) decl))
  | _ => do
    let link ← ModuleLink.ofNode? label loc children
    .ok (link.map .link)

/-- the elements of all nodes of a row; a node that is no element is left out -/
def Element.ofTrees : List Tree → Except BuildError (List Element)
  | [] => .ok []
  | .leaf .. :: rest => Element.ofTrees rest
  | .node label loc children :: rest => do
    let element ← Element.ofNode? label loc children
    let elements ← Element.ofTrees rest
    .ok (element.toList ++ elements)

def SourceFile.ofTree : Tree → Except BuildError SourceFile
  | .leaf .. => .ok ⟨[]⟩
  | .node _ _ children => (Element.ofTrees children).map fun elements => ⟨elements⟩

end Typings
