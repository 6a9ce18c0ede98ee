import Typings.Proofs.Declaration.Moving
/-!
# Reading moved trees

What is read off a moved tree is what is read off the tree, moved.

* `Moves m a a'`              a good value of `a` is one of `a'`, changed by `m`;
* `TypeExpr.ofTree_moved`     the types of a moved tree;
* `AmbientDecl.ofTree_moved`  the declarations of a moved tree;
* `Element.ofTrees_moved`     the elements of a moved row of trees.
-/

namespace Typings

/-- a good value of one reading is, changed, one of another -/
def Moves {α β : Type} (m : α → β) (a : Except BuildError α) (a' : Except BuildError β) : Prop :=
  ∀ x, a = .ok x → a' = .ok (m x)

namespace Moves
variable {α β γ δ : Type} {m : α → γ} {n : β → δ}

theorem ok {x : α} {y : γ} (h : y = m x) : Moves m (.ok x) (.ok y) := by
  rintro _ ⟨⟩
  rw [h]

theorem error {e : BuildError} {a' : Except BuildError γ} : Moves m (.error e) a' := by
  rintro _ ⟨⟩

theorem bind {a : Except BuildError α} {a' : Except BuildError γ} {k : α → Except BuildError β}
    {k' : γ → Except BuildError δ} (h : Moves m a a') (next : ∀ x, Moves n (k x) (k' (m x))) :
    Moves n (a >>= k) (a' >>= k') := by
  intro y hy
  cases a with
  | error e => cases hy
  | ok x =>
    rw [h x rfl]
    exact next x y hy

theorem map {a : Except BuildError α} {a' : Except BuildError γ} {k : α → β} {k' : γ → δ}
    (h : Moves m a a') (same : ∀ x, k' (m x) = n (k x)) : Moves n (a.map k) (a'.map k') := by
  intro y hy
  cases a with
  | error e => cases hy
  | ok x =>
    cases hy
    rw [h x rfl, Except.map, same]

end Moves

/-- the same for what may not be there -/
def MovesOption {α β : Type} (m : α → β) (o : Option (Except BuildError α))
    (o' : Option (Except BuildError β)) : Prop :=
  o = none ∧ o' = none ∨ ∃ a a', o = some a ∧ o' = some a' ∧ Moves m a a'

namespace Tree
variable (f : Loc → Loc)

/-! ## Tokens and children of a node -/

theorem token?_moved (kind : Terminal) (ts : List Tree) :
    token? kind (movedAll f ts) = token? kind ts := by
  induction ts with
  | nil => rfl
  | cons t ts ih =>
    cases t with
    | leaf k text loc =>
      rw [movedAll, moved, token?, token?, ih]
    | node => exact ih

theorem hasToken_moved (kind : Terminal) (ts : List Tree) :
    hasToken kind (movedAll f ts) = hasToken kind ts := by
  rw [hasToken, token?_moved, hasToken]

theorem token_moved (label : Label) (loc loc' : Loc) (kind : Terminal) (ts : List Tree) :
    Moves id (token label loc kind ts) (token label loc' kind (movedAll f ts)) := by
  rw [token, token, token?_moved]
  cases token? kind ts with
  | none => exact .error
  | some text => exact .ok rfl

theorem names_moved (ts : List Tree) : names (movedAll f ts) = names ts := by
  induction ts with
  | nil => rfl
  | cons t ts ih =>
    cases t with
    | leaf => rw [movedAll, moved, names, names, ih]
    | node => exact ih

theorem child?_moved (part : Nonterminal) (ts : List Tree) :
    child? part (movedAll f ts) = (child? part ts).map fun c => (f c.1, movedAll f c.2) := by
  induction ts with
  | nil => rfl
  | cons t ts ih =>
    cases t with
    | leaf => exact ih
    | node =>
      rw [movedAll, moved, child?, child?, ih]
      split <;> rfl

theorem child_moved (label : Label) (loc loc' : Loc) (part : Nonterminal) (ts : List Tree) :
    Moves (fun c => (f c.1, movedAll f c.2)) (child label loc part ts)
      (child label loc' part (movedAll f ts)) := by
  rw [child, child, child?_moved]
  cases child? part ts with
  | none => exact .error
  | some found => exact .ok rfl

theorem entity_moved (label : Label) (loc loc' : Loc) (ts : List Tree) :
    Moves id (entity label loc ts) (entity label loc' (movedAll f ts)) :=
  (child_moved f label loc loc' .entityName ts).map fun found => by
    rw [dotted, names_moved, dotted, id]

theorem literal_moved (text : Text) (loc loc' : Loc) : Moves id (literal text loc) (literal text loc') := by
  rw [literal, literal]
  cases Literal.decode text with
  | error e => exact .error
  | ok value => exact .ok rfl

theorem literal?_moved (ts : List Tree) : MovesOption id (literal? ts) (literal? (movedAll f ts)) := by
  induction ts with
  | nil => exact .inl ⟨rfl, rfl⟩
  | cons t ts ih =>
    cases t with
    | leaf k text loc =>
      rw [movedAll, moved, literal?, literal?]
      split
      · exact .inr ⟨_, _, rfl, rfl, literal_moved text loc (f loc)⟩
      · exact ih
    | node => exact ih

theorem source_moved (label : Label) (loc loc' : Loc) (ts : List Tree) :
    Moves id (source label loc ts) (source label loc' (movedAll f ts)) := by
  rw [source, source]
  obtain ⟨e, e'⟩ | ⟨a, a', e, e', same⟩ := literal?_moved f ts
  · rw [e, e']
    exact .error
  · rw [e, e']
    exact same

theorem memberName_moved (kind : Option Terminal) (text : Text) (loc loc' : Loc) :
    Moves id (memberName kind text loc) (memberName kind text loc') := by
  rw [memberName, memberName]
  split
  · exact literal_moved text loc loc'
  · exact .ok rfl

theorem propertyName_moved (label : Label) (loc loc' : Loc) (ts : List Tree) :
    Moves id (propertyName label loc ts) (propertyName label loc' (movedAll f ts)) := by
  induction ts with
  | nil => exact .error
  | cons t ts ih =>
    cases t with
    | leaf k text tokenLoc =>
      rw [movedAll, moved, propertyName, propertyName]
      split
      · exact memberName_moved k text tokenLoc (f tokenLoc)
      · exact ih
    | node => exact ih

theorem headText_moved (label : Label) (loc loc' : Loc) (ts : List Tree) :
    Moves id (headText label loc ts) (headText label loc' (movedAll f ts)) := by
  cases ts with
  | nil => exact .error
  | cons t ts =>
    cases t with
    | leaf => exact .ok rfl
    | node => exact .error

theorem accessibility_moved (ts : List Tree) :
    Moves id (accessibility ts) (accessibility (movedAll f ts)) := by
  rw [accessibility, accessibility, child?_moved]
  cases child? .accessibility ts with
  | none => exact .ok rfl
  | some found => exact (headText_moved f _ found.1 (f found.1) found.2).map fun _ => rfl

end Tree

/-! ## Types -/

section
variable (f : Loc → Loc)

/-- the same parts of a function type in another place; of the results, only good ones -/
structure FunctionParts.Moved (parts parts' : FunctionParts) : Prop where
  typeParams : parts'.typeParams = TypeParam.movedAll f parts.typeParams
  params : parts'.params = Param.movedAll f parts.params
  result : MovesOption (TypeExpr.moved f) parts.result parts'.result

theorem FunctionParts.type_moved {label : Label} {loc loc' : Loc}
    {make make' : List TypeParam → List Param → TypeExpr → TypeExpr}
    (same : ∀ typeParams params result,
      make' (TypeParam.movedAll f typeParams) (Param.movedAll f params) (TypeExpr.moved f result) =
        (make typeParams params result).moved f)
    {parts parts' : Except BuildError FunctionParts}
    (h : ∀ x, parts = .ok x → ∃ x', parts' = .ok x' ∧ FunctionParts.Moved f x x') :
    Moves (TypeExpr.moved f) (FunctionParts.type label loc make parts)
      (FunctionParts.type label loc' make' parts') := by
  cases parts with
  | error e => exact .error
  | ok x =>
    obtain ⟨x', rfl, moves⟩ := h x rfl
    obtain ⟨typeParams, params, result⟩ := x
    obtain ⟨typeParams', params', result'⟩ := x'
    obtain ⟨heads, heads', moved⟩ := moves
    cases heads
    cases heads'
    obtain ⟨rfl, rfl⟩ | ⟨_, _, rfl, rfl, inner⟩ := moved
    · exact .error
    · exact inner.bind fun _ => .ok (same ..)

theorem Signature.ofParts_moved {heads heads' : Except BuildError (List TypeParam × List Param)}
    {result result' : Except BuildError (Option TypeExpr)}
    (same : Moves (fun h => (TypeParam.movedAll f h.1, Param.movedAll f h.2)) heads heads')
    (also : Moves (TypeExpr.movedOption f) result result') :
    Moves (Signature.moved f) (Signature.ofParts heads result) (Signature.ofParts heads' result') :=
  same.bind fun _ => also.bind fun _ => .ok rfl

theorem TypeMember.indexOfParts_moved {label : Label} {loc : Loc} {key key' : Except BuildError Text}
    {keyType keyType' : Option (Except BuildError TypeExpr)}
    {valueType valueType' : Except BuildError (Option TypeExpr)} (keys : Moves id key key')
    (keyTypes : MovesOption (TypeExpr.moved f) keyType keyType')
    (valueTypes : Moves (TypeExpr.movedOption f) valueType valueType') :
    Moves (TypeMember.moved f) (TypeMember.indexOfParts label loc key keyType valueType)
      (TypeMember.indexOfParts label (f loc) key' keyType' valueType') := by
  refine keys.bind fun _ => ?_
  obtain ⟨rfl, rfl⟩ | ⟨a, a', rfl, rfl, same⟩ := keyTypes
  · exact .error
  · refine valueTypes.bind fun value => ?_
    cases value with
    | none => exact .error
    | some value => exact same.bind fun _ => .ok rfl

mutual

theorem TypeExpr.ofTree_moved : ∀ t : Tree,
    Moves (TypeExpr.moved f) (TypeExpr.ofTree t) (TypeExpr.ofTree (t.moved f))
  | .leaf .. => .error
  | .node label loc children => by
    rw [Tree.moved]
    unfold TypeExpr.ofTree
    split
    · exact (Tree.headText_moved f _ loc (f loc) children).bind fun _ => .ok rfl
    · exact (Tree.entity_moved f _ loc (f loc) children).bind fun _ =>
        (TypeExpr.argumentsIn_moved children).bind fun _ => .ok rfl
    · exact (Tree.entity_moved f _ loc (f loc) children).bind fun _ => .ok rfl
    · exact (TypeMember.ofTrees_moved children).bind fun _ => .ok rfl
    · obtain ⟨e, e'⟩ | ⟨a, a', e, e', same⟩ := TypeExpr.firstIn?_moved children
      · rw [e]
        exact .error
      · rw [e, e']
        exact same.bind fun _ => .ok rfl
    · exact FunctionParts.type_moved f (fun _ _ _ => rfl)
        (FunctionParts.ofTrees_moved children ⟨rfl, rfl, .inl ⟨rfl, rfl⟩⟩)
    · exact FunctionParts.type_moved f (fun _ _ _ => rfl)
        (FunctionParts.ofTrees_moved children ⟨rfl, rfl, .inl ⟨rfl, rfl⟩⟩)
    · exact .error

theorem TypeExpr.ofTrees_moved : ∀ ts : List Tree,
    Moves (TypeExpr.movedAll f) (TypeExpr.ofTrees ts) (TypeExpr.ofTrees (Tree.movedAll f ts))
  | [] => .ok rfl
  | .leaf .. :: rest => TypeExpr.ofTrees_moved rest
  | .node label loc children :: rest =>
    (TypeExpr.ofTree_moved (.node label loc children)).bind fun _ =>
      (TypeExpr.ofTrees_moved rest).bind fun _ => .ok rfl

theorem TypeExpr.firstIn?_moved : ∀ ts : List Tree,
    MovesOption (TypeExpr.moved f) (TypeExpr.firstIn? ts) (TypeExpr.firstIn? (Tree.movedAll f ts))
  | [] => .inl ⟨rfl, rfl⟩
  | .leaf .. :: rest => TypeExpr.firstIn?_moved rest
  | .node label loc children :: _ =>
    .inr ⟨_, _, rfl, rfl, TypeExpr.ofTree_moved (.node label loc children)⟩

theorem TypeExpr.argumentsIn_moved : ∀ ts : List Tree,
    Moves (TypeExpr.movedAll f) (TypeExpr.argumentsIn ts) (TypeExpr.argumentsIn (Tree.movedAll f ts))
  | [] => .ok rfl
  | .leaf .. :: rest => TypeExpr.argumentsIn_moved rest
  | .node label loc children :: rest => by
    rw [Tree.movedAll, Tree.moved, TypeExpr.argumentsIn, TypeExpr.argumentsIn]
    split
    · exact TypeExpr.ofTrees_moved children
    · exact TypeExpr.argumentsIn_moved rest

theorem TypeExpr.ascriptionIn_moved : ∀ ts : List Tree,
    Moves (TypeExpr.movedOption f) (TypeExpr.ascriptionIn ts)
      (TypeExpr.ascriptionIn (Tree.movedAll f ts))
  | [] => .ok rfl
  | .leaf .. :: rest => TypeExpr.ascriptionIn_moved rest
  | .node label loc children :: rest => by
    rw [Tree.movedAll, Tree.moved, TypeExpr.ascriptionIn, TypeExpr.ascriptionIn]
    split
    · obtain ⟨e, e'⟩ | ⟨a, a', e, e', same⟩ := TypeExpr.firstIn?_moved children
      · rw [e]
        exact .error
      · rw [e, e']
        exact same.bind fun _ => .ok rfl
    · exact TypeExpr.ascriptionIn_moved rest

theorem TypeExpr.keyTypeIn?_moved : ∀ ts : List Tree,
    MovesOption (TypeExpr.moved f) (TypeExpr.keyTypeIn? ts) (TypeExpr.keyTypeIn? (Tree.movedAll f ts))
  | [] => .inl ⟨rfl, rfl⟩
  | .leaf .. :: rest => TypeExpr.keyTypeIn?_moved rest
  | .node label loc children :: rest => by
    rw [Tree.movedAll, Tree.moved, TypeExpr.keyTypeIn?, TypeExpr.keyTypeIn?]
    split
    · exact .inr ⟨_, _, rfl, rfl, TypeExpr.ofTree_moved (.node label loc children)⟩
    · exact TypeExpr.keyTypeIn?_moved rest

theorem TypeParam.ofTrees_moved : ∀ ts : List Tree,
    Moves (TypeParam.movedAll f) (TypeParam.ofTrees ts) (TypeParam.ofTrees (Tree.movedAll f ts))
  | [] => .ok rfl
  | .leaf .. :: rest => TypeParam.ofTrees_moved rest
  | .node label loc children :: rest => by
    rw [Tree.movedAll, Tree.moved, TypeParam.ofTrees, TypeParam.ofTrees]
    split
    · refine (Tree.token_moved f label loc (f loc) .NAME children).bind fun _ => ?_
      obtain ⟨e, e'⟩ | ⟨a, a', e, e', same⟩ := TypeExpr.firstIn?_moved children
      · rw [e, e']
        exact (TypeParam.ofTrees_moved rest).bind fun _ => .ok rfl
      · rw [e, e']
        exact same.bind fun _ => (TypeParam.ofTrees_moved rest).bind fun _ => .ok rfl
    · exact TypeParam.ofTrees_moved rest

theorem Param.ofTrees_moved : ∀ ts : List Tree,
    Moves (Param.movedAll f) (Param.ofTrees ts) (Param.ofTrees (Tree.movedAll f ts))
  | [] => .ok rfl
  | .leaf .. :: rest => Param.ofTrees_moved rest
  | .node label loc children :: rest => by
    rw [Tree.movedAll, Tree.moved, Param.ofTrees, Param.ofTrees]
    refine (Tree.token_moved f label loc (f loc) .NAME children).bind fun _ =>
      (TypeExpr.ascriptionIn_moved children).bind fun _ => ?_
    split
    · exact (Param.ofTrees_moved rest).bind fun _ => .ok rfl
    · rw [Tree.hasToken_moved]
      exact (Tree.accessibility_moved f children).bind fun _ =>
        (Param.ofTrees_moved rest).bind fun _ => .ok rfl

theorem FunctionParts.ofTrees_moved : ∀ (ts : List Tree) {parts parts' : FunctionParts},
    FunctionParts.Moved f parts parts' → ∀ x, FunctionParts.ofTrees parts ts = .ok x →
      ∃ x', FunctionParts.ofTrees parts' (Tree.movedAll f ts) = .ok x' ∧ FunctionParts.Moved f x x'
  | [], _, parts', same => by
    rintro _ ⟨⟩
    exact ⟨parts', rfl, same⟩
  | .leaf .. :: rest, _, _, same => FunctionParts.ofTrees_moved rest same
  | .node label loc children :: rest, parts, parts', same => by
    rw [Tree.movedAll, Tree.moved, FunctionParts.ofTrees, FunctionParts.ofTrees]
    split
    · have typeParams := TypeParam.ofTrees_moved children
      cases h : TypeParam.ofTrees children with
      | error e =>
        rintro _ ⟨⟩
      | ok found =>
        rw [typeParams found h]
        exact FunctionParts.ofTrees_moved rest ⟨rfl, same.params, same.result⟩
    · split
      · have params := Param.ofTrees_moved children
        cases h : Param.ofTrees children with
        | error e =>
          rintro _ ⟨⟩
        | ok found =>
          rw [params found h]
          exact FunctionParts.ofTrees_moved rest ⟨same.typeParams, rfl, same.result⟩
      · exact FunctionParts.ofTrees_moved rest ⟨same.typeParams, same.params,
          .inr ⟨_, _, rfl, rfl, TypeExpr.ofTree_moved (.node label loc children)⟩⟩

theorem Signature.headsIn_moved : ∀ (ts : List Tree) (heads : List TypeParam × List Param),
    Moves (fun h => (TypeParam.movedAll f h.1, Param.movedAll f h.2)) (Signature.headsIn heads ts)
      (Signature.headsIn (TypeParam.movedAll f heads.1, Param.movedAll f heads.2) (Tree.movedAll f ts))
  | [], _ => .ok rfl
  | .leaf .. :: rest, heads => Signature.headsIn_moved rest heads
  | .node label loc children :: rest, heads => by
    rw [Tree.movedAll, Tree.moved, Signature.headsIn, Signature.headsIn]
    split
    · exact (TypeParam.ofTrees_moved children).bind fun _ => Signature.headsIn_moved rest _
    · split
      · exact (Param.ofTrees_moved children).bind fun _ => Signature.headsIn_moved rest _
      · exact Signature.headsIn_moved rest heads

theorem Signature.callIn_moved (label : Label) (loc loc' : Loc) : ∀ ts : List Tree,
    Moves (Signature.moved f) (Signature.callIn label loc ts)
      (Signature.callIn label loc' (Tree.movedAll f ts))
  | [] => .error
  | .leaf .. :: rest => Signature.callIn_moved label loc loc' rest
  | .node _ _ children :: rest => by
    rw [Tree.movedAll, Tree.moved, Signature.callIn, Signature.callIn]
    split
    · exact Signature.ofParts_moved f (Signature.headsIn_moved children ([], []))
        (TypeExpr.ascriptionIn_moved children)
    · exact Signature.callIn_moved label loc loc' rest

theorem TypeMember.ofTree_moved : ∀ t : Tree,
    Moves (TypeMember.moved f) (TypeMember.ofTree t) (TypeMember.ofTree (t.moved f))
  | .leaf .. => .error
  | .node label loc children => by
    rw [Tree.moved]
    unfold TypeMember.ofTree
    rw [Tree.hasToken_moved]
    have signature := Signature.ofParts_moved f (Signature.headsIn_moved children ([], []))
      (TypeExpr.ascriptionIn_moved children)
    split
    · exact (Tree.propertyName_moved f _ loc (f loc) children).bind fun _ =>
        (TypeExpr.ascriptionIn_moved children).bind fun _ => .ok rfl
    · exact (Tree.propertyName_moved f _ loc (f loc) children).bind fun _ =>
        (Signature.callIn_moved _ loc (f loc) children).bind fun _ => .ok rfl
    · exact signature.bind fun _ => .ok rfl
    · exact signature.bind fun _ => .ok rfl
    · exact TypeMember.indexOfParts_moved f (Tree.token_moved f _ loc (f loc) .NAME children)
        (TypeExpr.keyTypeIn?_moved children) (TypeExpr.ascriptionIn_moved children)
    · exact .error

theorem TypeMember.ofTrees_moved : ∀ ts : List Tree,
    Moves (TypeMember.movedAll f) (TypeMember.ofTrees ts) (TypeMember.ofTrees (Tree.movedAll f ts))
  | [] => .ok rfl
  | .leaf .. :: rest => TypeMember.ofTrees_moved rest
  | .node label loc children :: rest =>
    (TypeMember.ofTree_moved (.node label loc children)).bind fun _ =>
      (TypeMember.ofTrees_moved rest).bind fun _ => .ok rfl

end

/-! ## Interfaces and classes -/

theorem InterfaceDecl.addTrees_moved : ∀ (ts : List Tree) (decl : InterfaceDecl),
    Moves (InterfaceDecl.moved f) (decl.addTrees ts) ((decl.moved f).addTrees (Tree.movedAll f ts))
  | [], _ => .ok rfl
  | .leaf .. :: rest, decl => InterfaceDecl.addTrees_moved rest decl
  | .node label loc children :: rest, decl => by
    rw [Tree.movedAll, Tree.moved, InterfaceDecl.addTrees, InterfaceDecl.addTrees]
    split
    · exact (TypeParam.ofTrees_moved f children).bind fun _ => InterfaceDecl.addTrees_moved rest _
    · split
      · exact (TypeExpr.ofTrees_moved f children).bind fun _ => InterfaceDecl.addTrees_moved rest _
      · split
        · exact (TypeMember.ofTrees_moved f children).bind fun _ => InterfaceDecl.addTrees_moved rest _
        · exact InterfaceDecl.addTrees_moved rest decl

theorem InterfaceDecl.ofChildren_moved (loc : Loc) (ts : List Tree) :
    Moves (InterfaceDecl.moved f) (InterfaceDecl.ofChildren loc ts)
      (InterfaceDecl.ofChildren (f loc) (Tree.movedAll f ts)) :=
  (Tree.token_moved f _ loc (f loc) .NAME ts).bind fun _ => InterfaceDecl.addTrees_moved f ts _

theorem ClassMember.ofNode_moved (label : Label) (loc : Loc) (ts : List Tree) :
    Moves (ClassMember.moved f) (ClassMember.ofNode label loc ts)
      (ClassMember.ofNode label (f loc) (Tree.movedAll f ts)) := by
  unfold ClassMember.ofNode
  refine (Tree.accessibility_moved f ts).bind fun _ => ?_
  rw [Tree.hasToken_moved, Tree.hasToken_moved]
  split
  · rw [Tree.child?_moved]
    cases Tree.child? .parameterList ts with
    | none => exact .ok rfl
    | some found => exact (Param.ofTrees_moved f found.2).bind fun _ => .ok rfl
  · exact (Tree.propertyName_moved f _ loc (f loc) ts).bind fun _ =>
      (Signature.callIn_moved f _ loc (f loc) ts).bind fun _ => .ok rfl
  · exact (Tree.propertyName_moved f _ loc (f loc) ts).bind fun _ =>
      (TypeExpr.ascriptionIn_moved f ts).bind fun _ => .ok rfl
  · refine (Tree.child_moved f _ loc (f loc) .indexSignature ts).bind fun found =>
      Moves.bind (m := TypeMember.moved f) ?_ fun _ => .ok rfl
    exact TypeMember.indexOfParts_moved f (Tree.token_moved f _ _ _ .NAME found.2)
      (TypeExpr.keyTypeIn?_moved f found.2) (TypeExpr.ascriptionIn_moved f found.2)
  · exact .error

/-- the parts of a class, each place changed by `f` -/
def ClassParts.moved (parts : ClassParts) : ClassParts where
  typeParams := TypeParam.movedAll f parts.typeParams
  base := TypeExpr.movedOption f parts.base
  implements := TypeExpr.movedAll f parts.implements
  members := parts.members.map (ClassMember.moved f)

theorem TypeExpr.baseIn_moved (loc loc' : Loc) : ∀ ts : List Tree,
    Moves (TypeExpr.moved f) (TypeExpr.baseIn loc ts) (TypeExpr.baseIn loc' (Tree.movedAll f ts))
  | [] => .error
  | .leaf .. :: rest => TypeExpr.baseIn_moved loc loc' rest
  | .node label childLoc children :: rest => by
    rw [Tree.movedAll, Tree.moved, TypeExpr.baseIn, TypeExpr.baseIn]
    split
    · exact TypeExpr.ofTree_moved f (.node label childLoc children)
    · exact TypeExpr.baseIn_moved loc loc' rest

theorem ClassParts.addTrees_moved : ∀ (ts : List Tree) (parts : ClassParts),
    Moves (ClassParts.moved f) (parts.addTrees ts) ((parts.moved f).addTrees (Tree.movedAll f ts))
  | [], _ => .ok rfl
  | .leaf .. :: rest, parts => ClassParts.addTrees_moved rest parts
  | .node label loc children :: rest, parts => by
    rw [Tree.movedAll, Tree.moved, ClassParts.addTrees, ClassParts.addTrees]
    split
    · exact (TypeParam.ofTrees_moved f children).bind fun _ => ClassParts.addTrees_moved rest _
    · split
      · exact (TypeExpr.baseIn_moved f loc (f loc) children).bind fun _ =>
          ClassParts.addTrees_moved rest _
      · split
        · exact (TypeExpr.ofTrees_moved f children).bind fun _ => ClassParts.addTrees_moved rest _
        · refine (ClassMember.ofNode_moved f label loc children).bind fun member => ?_
          have step := ClassParts.addTrees_moved rest { parts with members := parts.members ++ [member] }
          rw [ClassParts.moved, List.map_append] at step
          exact step

theorem Tree.tokens_moved (ts : List Tree) :
    tokens (movedAll f ts) = (tokens ts).map fun t => (t.1, t.2.1, f t.2.2) := by
  induction ts with
  | nil => rfl
  | cons t ts ih =>
    cases t with
    | leaf => rw [movedAll, moved, tokens, tokens, ih, List.map_cons]
    | node => exact ih

theorem EnumMember.ofTrees_moved : ∀ ts : List Tree,
    Moves id (EnumMember.ofTrees ts) (EnumMember.ofTrees (Tree.movedAll f ts))
  | [] => .ok rfl
  | .leaf .. :: rest => EnumMember.ofTrees_moved rest
  | .node label loc children :: rest => by
    rw [Tree.movedAll, Tree.moved, EnumMember.ofTrees, EnumMember.ofTrees, Tree.tokens_moved]
    split
    · cases Tree.tokens children with
      | nil => exact .error
      | cons t more =>
        refine (Tree.memberName_moved t.1 t.2.1 t.2.2 (f t.2.2)).bind fun _ =>
          (EnumMember.ofTrees_moved rest).bind fun _ => .ok ?_
        cases more <;> rfl
    · exact EnumMember.ofTrees_moved rest

/-! ## Imports and exports -/

theorem Binding.ofTrees_moved : ∀ ts : List Tree,
    Moves id (Binding.ofTrees ts) (Binding.ofTrees (Tree.movedAll f ts))
  | [] => .ok rfl
  | .leaf .. :: rest => Binding.ofTrees_moved rest
  | .node label loc children :: rest => by
    rw [Tree.movedAll, Tree.moved, Binding.ofTrees, Binding.ofTrees, Tree.names_moved]
    split
    · cases Tree.names children with
      | nil => exact .error
      | cons name more => exact (Binding.ofTrees_moved rest).bind fun _ => .ok rfl
    · exact Binding.ofTrees_moved rest

theorem ImportParts.addTrees_moved : ∀ (ts : List Tree) (parts : ImportParts),
    Moves id (parts.addTrees ts) (parts.addTrees (Tree.movedAll f ts))
  | [], _ => by
    rw [Tree.movedAll, ImportParts.addTrees]
    exact .ok rfl
  | .leaf .. :: rest, parts => by
    rw [Tree.movedAll, Tree.moved, ImportParts.addTrees, ImportParts.addTrees]
    exact ImportParts.addTrees_moved rest parts
  | .node label loc children :: rest, parts => by
    rw [Tree.movedAll, Tree.moved]
    unfold ImportParts.addTrees
    have name := Tree.token_moved f label loc (f loc) .NAME children
    split
    · exact (ImportParts.addTrees_moved children parts).bind fun _ => ImportParts.addTrees_moved rest _
    · exact name.bind fun _ => ImportParts.addTrees_moved rest _
    · exact name.bind fun _ => ImportParts.addTrees_moved rest _
    · exact (Binding.ofTrees_moved f children).bind fun _ => ImportParts.addTrees_moved rest _
    · exact ImportParts.addTrees_moved rest parts

theorem ModuleLink.ofNode?_moved (label : Label) (loc : Loc) (ts : List Tree) :
    Moves (Option.map (ModuleLink.moved f)) (ModuleLink.ofNode? label loc ts)
      (ModuleLink.ofNode? label (f loc) (Tree.movedAll f ts)) := by
  unfold ModuleLink.ofNode?
  have name := Tree.token_moved f label loc (f loc) .NAME ts
  have entity := Tree.entity_moved f label loc (f loc) ts
  have source := Tree.source_moved f label loc (f loc) ts
  rw [Tree.hasToken_moved]
  split
  · exact name.bind fun _ => entity.bind fun _ => .ok rfl
  · exact name.bind fun _ => source.bind fun _ => .ok rfl
  · exact source.bind fun _ => (ImportParts.addTrees_moved f ts {}).bind fun _ => .ok rfl
  · exact entity.bind fun _ => .ok rfl
  · exact entity.bind fun _ => .ok rfl
  · refine (Tree.child_moved f _ loc (f loc) .namedBindings ts).bind fun found =>
      (Binding.ofTrees_moved f found.2).bind fun _ => ?_
    obtain ⟨e, e'⟩ | ⟨a, a', e, e', same⟩ := Tree.literal?_moved f ts
    · rw [e, e']
      exact .ok rfl
    · rw [e, e']
      exact same.bind fun _ => .ok rfl
  · exact .ok rfl

/-! ## Declarations -/

theorem Tree.path_moved : ∀ ts : List Tree, Moves id (path ts) (path (movedAll f ts))
  | [] => .ok rfl
  | .leaf k text loc :: rest => by
    rw [movedAll, moved, path, path]
    split
    · exact (literal_moved text loc (f loc)).bind fun _ => (path_moved rest).bind fun _ => .ok rfl
    · split
      · exact (path_moved rest).bind fun _ => .ok rfl
      · exact path_moved rest
  | .node .. :: rest => path_moved rest

mutual

theorem AmbientDecl.ofTree_moved : ∀ t : Tree,
    Moves (AmbientDecl.moved f) (AmbientDecl.ofTree t) (AmbientDecl.ofTree (t.moved f))
  | .leaf .. => .error
  | .node label loc children => by
    rw [Tree.moved]
    unfold AmbientDecl.ofTree
    have name := Tree.token_moved f label loc (f loc) .NAME children
    rw [Tree.hasToken_moved]
    split
    · exact name.bind fun _ => (TypeExpr.ascriptionIn_moved f children).bind fun _ => .ok rfl
    · exact name.bind fun _ => (Signature.callIn_moved f _ loc (f loc) children).bind fun _ => .ok rfl
    · exact name.bind fun _ => (ClassParts.addTrees_moved f children {}).bind fun _ => .ok rfl
    · exact (Tree.child_moved f _ loc (f loc) .interfaceDeclaration children).bind fun found =>
        (InterfaceDecl.ofChildren_moved f found.1 found.2).bind fun _ => .ok rfl
    · exact name.bind fun _ => (EnumMember.ofTrees_moved f children).bind fun _ => .ok rfl
    · exact (Tree.child_moved f _ loc (f loc) .moduleName children).bind fun found =>
        (Tree.path_moved f found.2).bind fun _ =>
          (ModuleElement.ofTrees_moved children true).bind fun _ => .ok rfl
    · exact .error

theorem AmbientDecl.firstIn?_moved : ∀ ts : List Tree,
    MovesOption (AmbientDecl.moved f) (AmbientDecl.firstIn? ts)
      (AmbientDecl.firstIn? (Tree.movedAll f ts))
  | [] => .inl ⟨rfl, rfl⟩
  | .leaf .. :: rest => AmbientDecl.firstIn?_moved rest
  | .node label loc children :: _ =>
    .inr ⟨_, _, rfl, rfl, AmbientDecl.ofTree_moved (.node label loc children)⟩

theorem ModuleElement.ofTrees_moved : ∀ (ts : List Tree) (skipName : Bool),
    Moves (ModuleElement.movedAll f) (ModuleElement.ofTrees skipName ts)
      (ModuleElement.ofTrees skipName (Tree.movedAll f ts))
  | [], _ => .ok rfl
  | .leaf .. :: rest, skipName => ModuleElement.ofTrees_moved rest skipName
  | .node label loc children :: rest, skipName => by
    rw [Tree.movedAll, Tree.moved, ModuleElement.ofTrees, ModuleElement.ofTrees, Tree.hasToken_moved]
    split
    · exact ModuleElement.ofTrees_moved rest false
    · split
      · obtain ⟨e, e'⟩ | ⟨a, a', e, e', same⟩ := AmbientDecl.firstIn?_moved children
        · rw [e]
          exact .error
        · rw [e, e']
          exact same.bind fun _ => (ModuleElement.ofTrees_moved rest skipName).bind fun _ => .ok rfl
      · refine (ModuleLink.ofNode?_moved f label loc children).bind fun link => ?_
        cases link with
        | none => exact .error
        | some link =>
          refine (ModuleElement.ofTrees_moved rest skipName).bind fun _ => .ok ?_
          cases link <;> rfl

end

theorem Element.ofNode?_moved (label : Label) (loc : Loc) (ts : List Tree) :
    Moves (Option.map (Element.moved f)) (Element.ofNode? label loc ts)
      (Element.ofNode? label (f loc) (Tree.movedAll f ts)) := by
  unfold Element.ofNode?
  rw [Tree.hasToken_moved]
  split
  · exact (Tree.child_moved f _ loc (f loc) .interfaceDeclaration ts).bind fun found =>
      (InterfaceDecl.ofChildren_moved f found.1 found.2).bind fun _ => .ok rfl
  · obtain ⟨e, e'⟩ | ⟨a, a', e, e', same⟩ := AmbientDecl.firstIn?_moved f ts
    · rw [e]
      exact .error
    · rw [e, e']
      exact same.bind fun _ => .ok rfl
  · refine (ModuleLink.ofNode?_moved f label loc ts).bind fun link => .ok ?_
    cases link <;> rfl

/-- the elements of a row of moved trees are the elements of the row, moved -/
theorem Element.ofTrees_moved : ∀ ts : List Tree,
    Moves (List.map (Element.moved f)) (Element.ofTrees ts) (Element.ofTrees (Tree.movedAll f ts))
  | [] => .ok rfl
  | .leaf .. :: rest => Element.ofTrees_moved rest
  | .node label loc children :: rest => by
    refine (Element.ofNode?_moved f label loc children).bind fun element =>
      (Element.ofTrees_moved rest).bind fun elements => .ok ?_
    rw [List.map_append]
    cases element <;> rfl

end

end Typings
