import Typings.Declaration.OfTree
import Typings.Model.OfDeclaration
/-!
# Declarations as nodes

Everything in a declaration that has a place of its own is a node, whatever its kind.  What a node is
made of stands in rows: its type parameters, its parameters, its members and so on.  Type parameters,
signatures and the elements of modules have no place; what they are made of belongs to the node around
them.

* `Node`                       a part of a declaration that has a place;
* `Node.loc?`                  its place;
* `Node.rows`                  the rows of nodes that it is made of: its `parts`, and its `bases`, which are
                               the types that a class or an interface extends or implements;
* `Node.Contains`              one node is inside another;
* `Grown t n`                  the node `n` has the place of the tree `t`, and what it is made of stands in
                               order in the tree.
-/

namespace Typings

/-- a part of a declaration that has a place -/
inductive Node where
  | type (t : TypeExpr)
  | param (p : Param)
  | member (m : TypeMember)
  | interface (decl : InterfaceDecl)
  | classMember (m : ClassMember)
  | ambient (decl : AmbientDecl)
  | element (e : Element)

/-! ## Places -/

def TypeExpr.loc? : TypeExpr → Option Loc
  | predefined loc _ | reference loc _ _ | query loc _ | object loc _ | array loc _
  | function loc _ _ _ | construct loc _ _ _ => some loc
  | unknown => none

def Param.loc : Param → Loc
  | single loc _ _ _ _ | rest loc _ _ => loc

def TypeMember.loc? : TypeMember → Option Loc
  | property loc _ _ _ | method loc _ _ _ | call loc _ | construct loc _ | index loc _ _ _ => some loc
  | unknown => none

def ClassMember.loc? : ClassMember → Option Loc
  | initializer loc _ _ | method loc _ _ _ _ _ | field loc _ _ _ _ _ | index loc _ => some loc
  | unknown => none

def ModuleLink.loc : ModuleLink → Loc
  | importAlias loc _ _ _ | importRequire loc _ _ _ | importFrom loc _ _ _ _ | exportAssign loc _
  | exportDefault loc _ | exportList loc _ _ => loc

def AmbientDecl.loc? : AmbientDecl → Option Loc
  | variableDecl loc _ _ | functionDecl loc _ _ | classDecl loc _ _ _ _ _ | interfaceDecl loc _
  | enumDecl loc _ _ _ | moduleDecl loc _ _ => some loc
  | unknown => none

def Element.loc? : Element → Option Loc
  | interfaceElement loc _ _ | ambientElement loc _ _ => some loc
  | bare decl => decl.loc?
  | link l => some l.loc
  | unknown => none

namespace Node

/-- the place of a node; only a part of no kind that belongs there has none -/
def loc? : Node → Option Loc
  | type t => t.loc?
  | param p => some p.loc
  | member m => m.loc?
  | interface decl => some decl.loc
  | classMember m => m.loc?
  | ambient decl => decl.loc?
  | element e => e.loc?

/-- what stands in a file or a module as a node: a bare declaration stands for itself -/
def ofElement : Element → Node
  | .bare decl => .ambient decl
  | e => .element e

end Node

/-! ## Rows -/

/-- the bounds of type parameters -/
def TypeParam.bounds (ps : List TypeParam) : List Node :=
  (ps.filterMap fun | mk _ bound => bound).map .type

/-- a type, if there is one -/
def TypeExpr.toNodes (t : Option TypeExpr) : List Node := t.toList.map .type

/-- what a function is made of -/
def Signature.rows : Signature → List (List Node)
  | mk typeParams params result =>
    [TypeParam.bounds typeParams, params.map .param, TypeExpr.toNodes result]

def ModuleElement.node : ModuleElement → Node
  | mk _ element => .ofElement element

namespace Node

/-- the rows that a node is made of, but for its bases -/
def parts : Node → List (List Node)
  | type t =>
    match t with
    | .reference _ _ args => [args.map .type]
    | .object _ members => [members.map .member]
    | .array _ item => [[.type item]]
    | .function _ typeParams params result | .construct _ typeParams params result =>
      [TypeParam.bounds typeParams, params.map .param, [.type result]]
    | .predefined .. | .query .. | .unknown => []
  | param p => [TypeExpr.toNodes p.type]
  | member m =>
    match m with
    | .property _ _ ascribed _ => [TypeExpr.toNodes ascribed]
    | .method _ _ signature _ | .call _ signature | .construct _ signature => signature.rows
    | .index _ _ keyType valueType => [[.type keyType], [.type valueType]]
    | .unknown => []
  | interface decl => [TypeParam.bounds decl.typeParams, decl.members.map .member]
  | classMember m =>
    match m with
    | .initializer _ params _ => [params.map .param]
    | .method _ _ signature _ _ _ => signature.rows
    | .field _ _ ascribed _ _ _ => [TypeExpr.toNodes ascribed]
    | .index _ signature => [[.member signature]]
    | .unknown => []
  | ambient decl =>
    match decl with
    | .variableDecl _ _ ascribed => [TypeExpr.toNodes ascribed]
    | .functionDecl _ _ signature => signature.rows
    | .classDecl _ _ typeParams _ _ members => [TypeParam.bounds typeParams, members.map .classMember]
    | .interfaceDecl _ decl => [[.interface decl]]
    | .enumDecl .. | .unknown => []
    | .moduleDecl _ _ elements => [elements.map ModuleElement.node]
  | element e =>
    match e with
    | .interfaceElement _ _ decl => [[.interface decl]]
    | .ambientElement _ _ decl | .bare decl => [[.ambient decl]]
    | .link _ | .unknown => []

/-- the rows of types that an interface or a class extends or implements -/
def bases : Node → List (List Node)
  | interface decl => [decl.bases.map .type]
  | ambient (.classDecl _ _ _ base implements _) => [TypeExpr.toNodes base, implements.map .type]
  | _ => []

/-- the rows of nodes that a node is made of -/
def rows (n : Node) : List (List Node) := n.parts ++ n.bases

/-- a node is inside another one -/
inductive Contains : Node → Node → Prop
  | part {n m : Node} {row : List Node} (hr : row ∈ n.rows) (hm : m ∈ row) : Contains n m
  | within {n m k : Node} {row : List Node} (hr : row ∈ n.rows) (hm : m ∈ row)
      (deeper : Contains m k) : Contains n k

end Node

/-- the nodes of a file: its elements and all that is inside them -/
def SourceFile.Holds (f : SourceFile) (n : Node) : Prop :=
  ∃ e ∈ f.elements, Node.ofElement e = n ∨ (Node.ofElement e).Contains n

/-! ## Nodes and trees -/

/-- the phrases behind the words `extends` and `implements` -/
def Label.inherits : Label → Bool
  | .phrase n => n == .interfaceExtends || n == .classExtends || n == .classImplements
  | .other _ => false

/-- the names of a node are spelled by the children of its tree -/
def Node.SpelledIn (label : Label) (children : List Tree) : Node → Prop
  | type (.reference _ name _) => label = .phrase .typeReference ∧
      ∃ found, Tree.child? .entityName children = some found ∧ name = Tree.dotted found.2
  | param p => Tree.token? .NAME children = some p.name
  | interface decl => Tree.token? .NAME children = some decl.name
  | ambient (.classDecl _ name _ _ _ _) => Tree.token? .NAME children = some name
  | _ => True

/-- a type is what is read off its tree -/
def Node.ReadFrom (t : Tree) : Node → Prop
  | type x => TypeExpr.ofTree t = .ok x
  | _ => True

mutual

/-- a node has the place of a tree, and what it is made of stands in the tree -/
inductive Grown : Tree → Node → Prop
  | mk {label : Label} {loc : Loc} {children : List Tree} {n : Node} (located : n.loc? = some loc)
      (spelled : n.SpelledIn label children) (parts : ∀ row ∈ n.parts, GrownRow true label children row)
      (bases : ∀ row ∈ n.bases, GrownRow false label children row) : Grown (.node label loc children) n

/-- a row of nodes stands in this order in the row of trees of an `owner`, each in another tree or below
it.  A strict row has no nodes behind the words `extends` and `implements`. -/
inductive GrownRow : Bool → Label → List Tree → List Node → Prop
  | nil {strict : Bool} {owner : Label} : GrownRow strict owner [] []
  | skip {strict : Bool} {owner : Label} {t : Tree} {ts : List Tree} {ns : List Node}
      (further : GrownRow strict owner ts ns) : GrownRow strict owner (t :: ts) ns
  | take {strict : Bool} {owner : Label} {t : Tree} {ts : List Tree} {n : Node} {ns : List Node}
      (owned : strict = true → owner.inherits = false) (read : n.ReadFrom t) (here : Grown t n)
      (further : GrownRow strict owner ts ns) : GrownRow strict owner (t :: ts) (n :: ns)
  | inner {strict : Bool} {owner label : Label} {loc : Loc} {children ts : List Tree} {ns ms : List Node}
      (below : GrownRow strict label children ns) (further : GrownRow strict owner ts ms) :
      GrownRow strict owner (.node label loc children :: ts) (ns ++ ms)

end

namespace GrownRow
variable {strict : Bool} {owner : Label}

/-- no node stands in every row -/
theorem none : ∀ ts : List Tree, GrownRow strict owner ts []
  | [] => .nil
  | _ :: rest => .skip (none rest)

/-- one node in the first tree -/
theorem one (owned : strict = true → owner.inherits = false) {t : Tree} {n : Node} (read : n.ReadFrom t)
    (here : Grown t n) (rest : List Tree) : GrownRow strict owner (t :: rest) [n] :=
  .take owned read here (none rest)

/-- a row below the first tree -/
theorem under {label : Label} {loc : Loc} {children : List Tree} {ns : List Node}
    (below : GrownRow strict label children ns) (rest : List Tree) :
    GrownRow strict owner (.node label loc children :: rest) ns := by
  have h : GrownRow strict owner (.node label loc children :: rest) (ns ++ []) := .inner below (none rest)
  rwa [List.append_nil] at h

section
variable {part : Nonterminal} {ts : List Tree} {found : Loc × List Tree}
  (h : Tree.child? part ts = some found)
include h

/-- a row below the first tree of a phrase -/
theorem child {ns : List Node} (below : GrownRow strict (.phrase part) found.2 ns) :
    GrownRow strict owner ts ns := by
  induction ts with
  | nil => cases h
  | cons t ts ih =>
    cases t with
    | leaf => exact .skip (ih h)
    | node label loc children =>
      rw [Tree.child?] at h
      split at h
      · rename_i e
        cases h
        exact under (e ▸ below) ts
      · exact .skip (ih h)

/-- one node in the first tree of a phrase -/
theorem ofChild {n : Node} (owned : strict = true → owner.inherits = false)
    (read : n.ReadFrom (.node (.phrase part) found.1 found.2))
    (here : Grown (.node (.phrase part) found.1 found.2) n) : GrownRow strict owner ts [n] := by
  induction ts with
  | nil => cases h
  | cons t ts ih =>
    cases t with
    | leaf => exact .skip (ih h)
    | node label loc children =>
      rw [Tree.child?] at h
      split at h
      · rename_i e
        cases h
        exact one owned (e ▸ read) (e ▸ here) ts
      · exact .skip (ih h)

end

variable {ts us : List Tree} {ns ms : List Node}

theorem append (h' : GrownRow strict owner us ms) : ∀ {ts : List Tree} {ns : List Node},
    GrownRow strict owner ts ns → GrownRow strict owner (ts ++ us) (ns ++ ms)
  | _, _, .nil => h'
  | _, _, .skip further => .skip (append h' further)
  | _, _, .take owned read here further => .take owned read here (append h' further)
  | _, _, .inner below further => by
    rw [List.append_assoc]
    exact .inner below (append h' further)

/-- a row of nodes with one more tree behind it -/
theorem before (h : GrownRow strict owner ts ns) (t : Tree) : GrownRow strict owner (ts ++ [t]) ns := by
  have h' := append (none [t]) h
  rwa [List.append_nil] at h'

/-- a row of nodes in the last tree -/
theorem last {t : Tree} (ts : List Tree) (h : GrownRow strict owner [t] ns) :
    GrownRow strict owner (ts ++ [t]) ns :=
  append h (none ts)

end GrownRow

end Typings
