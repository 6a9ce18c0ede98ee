import Typings.Proofs.Declaration.Nodes
/-!
# What is read off a tree is grown from it

Each node that is read off a tree has the place of the tree, and what it is made of is read off the trees
below, in their order.

* `Gives P r`                  a good value of a reading has a property;
* `TypeExpr.ofTree_grown`      types are grown from their trees;
* `AmbientDecl.ofTree_grown`   so are declarations;
* `Element.ofTrees_grown`      the elements of a file are a row that stands in the row of their trees.
-/

namespace Typings

/-- a good value of a reading has a property -/
def Gives {α : Type} (P : α → Prop) (r : Except BuildError α) : Prop := ∀ x, r = .ok x → P x

namespace Gives
variable {α β : Type} {P : α → Prop} {Q : β → Prop}

theorem ok {x : α} (h : P x) : Gives P (.ok x) := by
  rintro _ ⟨⟩
  exact h

theorem error {e : BuildError} : Gives P (.error e) := by
  rintro _ ⟨⟩

theorem bind {a : Except BuildError α} {k : α → Except BuildError β} (h : Gives P a)
    (next : ∀ x, P x → Gives Q (k x)) : Gives Q (a >>= k) := by
  intro y hy
  cases a with
  | error e => cases hy
  | ok x => exact next x (h x rfl) y hy

/-- a good value is what is read -/
theorem read {a : Except BuildError α} (h : Gives P a) : Gives (fun x => a = .ok x ∧ P x) a :=
  fun x e => ⟨e, h x e⟩

/-- nothing has to be known about what is read -/
theorem skip {a : Except BuildError α} {k : α → Except BuildError β} (next : ∀ x, Gives Q (k x)) :
    Gives Q (a >>= k) :=
  bind (P := fun _ => True) (fun _ _ => trivial) fun x _ => next x

end Gives

namespace Tree

theorem token_gives (label : Label) (loc : Loc) (kind : Terminal) (ts : List Tree) :
    Gives (fun text => token? kind ts = some text) (token label loc kind ts) := by
  rw [token]
  cases found : token? kind ts with
  | none => exact .error
  | some text => exact .ok rfl

theorem child_gives (label : Label) (loc : Loc) (part : Nonterminal) (ts : List Tree) :
    Gives (fun found => child? part ts = some found) (child label loc part ts) := by
  rw [child]
  cases found : child? part ts with
  | none => exact .error
  | some found => exact .ok rfl

theorem entity_gives (label : Label) (loc : Loc) (ts : List Tree) :
    Gives (fun name => ∃ found, child? .entityName ts = some found ∧ name = dotted found.2)
      (entity label loc ts) := by
  rw [entity, child]
  cases child? .entityName ts with
  | none => exact .error
  | some found => exact .ok ⟨found, rfl, rfl⟩

end Tree

/-! ## Types -/

/-- what stands in a signature is in a row of trees -/
def Signature.GrownIn (owner : Label) (ts : List Tree) (s : Signature) : Prop :=
  ∀ row ∈ s.rows, GrownRow true owner ts row

/-- the type parameters and the parameters of a signature are in a row of trees -/
def Signature.HeadsIn (owner : Label) (ts : List Tree) (heads : List TypeParam × List Param) : Prop :=
  GrownRow true owner ts (TypeParam.bounds heads.1) ∧ GrownRow true owner ts (heads.2.map .param)

/-- the parts of a function type are in a row of trees -/
structure FunctionParts.GrownIn (owner : Label) (ts : List Tree) (parts : FunctionParts) : Prop where
  typeParams : GrownRow true owner ts (TypeParam.bounds parts.typeParams)
  params : GrownRow true owner ts (parts.params.map .param)
  result : ∀ r ∈ parts.result, Gives (fun x => GrownRow true owner ts [.type x]) r

theorem FunctionParts.type_grown {label : Label} {loc : Loc} {children : List Tree}
    {make : List TypeParam → List Param → TypeExpr → TypeExpr}
    (grown : ∀ typeParams params result, GrownRow true label children (TypeParam.bounds typeParams) →
      GrownRow true label children (params.map .param) → GrownRow true label children [.type result] →
        Grown (.node label loc children) (.type (make typeParams params result)))
    {parts : Except BuildError FunctionParts} (h : Gives (FunctionParts.GrownIn label children) parts) :
    Gives (fun x => Grown (.node label loc children) (.type x)) (FunctionParts.type label loc make parts) := by
  refine h.bind fun parts h => ?_
  cases e : parts.result with
  | none => exact .error
  | some result =>
    exact (h.result result (by rw [e]; rfl)).bind fun x hx => .ok (grown _ _ _ h.typeParams h.params hx)

theorem Signature.ofParts_grown {owner : Label} {ts : List Tree}
    {heads : Except BuildError (List TypeParam × List Param)}
    {result : Except BuildError (Option TypeExpr)} (h : Gives (HeadsIn owner ts) heads)
    (h' : Gives (fun t => GrownRow true owner ts (TypeExpr.toNodes t)) result) :
    Gives (GrownIn owner ts) (ofParts heads result) :=
  h.bind fun _ heads => h'.bind fun _ result => .ok
    (List.forall_mem_cons.mpr ⟨heads.1, List.forall_mem_cons.mpr ⟨heads.2, List.forall_mem_singleton.mpr result⟩⟩)

theorem TypeMember.indexOfParts_grown {label : Label} {loc : Loc} {children : List Tree}
    {key : Except BuildError Text} {keyType : Option (Except BuildError TypeExpr)}
    {valueType : Except BuildError (Option TypeExpr)}
    (keyGrown : ∀ r ∈ keyType, Gives (fun x => GrownRow true label children [.type x]) r)
    (valueGrown : Gives (fun t => GrownRow true label children (TypeExpr.toNodes t)) valueType) :
    Gives (fun x => Grown (.node label loc children) (.member x))
      (TypeMember.indexOfParts label loc key keyType valueType) := by
  refine .skip fun key => ?_
  cases keyType with
  | none => exact .error
  | some keyType =>
    refine valueGrown.bind fun value hv => ?_
    cases value with
    | none => exact .error
    | some value =>
      exact (keyGrown keyType rfl).bind fun x hx => .ok (.mk rfl trivial
        (List.forall_mem_cons.mpr ⟨hx, List.forall_mem_singleton.mpr hv⟩) (fun _ h => nomatch h))

mutual

theorem TypeExpr.ofTree_grown : ∀ t : Tree, Gives (fun x => Grown t (.type x)) (TypeExpr.ofTree t)
  | .leaf .. => .error
  | .node label loc children => by
    unfold TypeExpr.ofTree
    split
    · exact .skip fun _ => .ok (.mk rfl trivial (fun _ h => nomatch h) (fun _ h => nomatch h))
    · exact (Tree.entity_gives _ loc children).bind fun _ spelled =>
        (TypeExpr.argumentsIn_grown children).bind fun _ args => .ok (.mk rfl ⟨rfl, spelled⟩
          (List.forall_mem_singleton.mpr args) (fun _ h => nomatch h))
    · exact .skip fun _ => .ok (.mk rfl trivial (fun _ h => nomatch h) (fun _ h => nomatch h))
    · exact (TypeMember.ofTrees_grown (fun _ => rfl) children).bind fun _ members => .ok (.mk rfl trivial
        (List.forall_mem_singleton.mpr members) (fun _ h => nomatch h))
    · cases e : TypeExpr.firstIn? children with
      | none => exact .error
      | some r =>
        exact (TypeExpr.firstIn?_grown (fun _ => rfl) children r e).bind fun _ first => .ok (.mk rfl trivial
          (List.forall_mem_singleton.mpr first) (fun _ h => nomatch h))
    · refine FunctionParts.type_grown (fun _ _ _ typeParams params result => ?_)
        (FunctionParts.ofTrees_grown rfl children [] {} ⟨.nil, .nil, fun _ h => nomatch h⟩)
      exact .mk rfl trivial (List.forall_mem_cons.mpr ⟨typeParams,
        List.forall_mem_cons.mpr ⟨params, List.forall_mem_singleton.mpr result⟩⟩) (fun _ h => nomatch h)
    · refine FunctionParts.type_grown (fun _ _ _ typeParams params result => ?_)
        (FunctionParts.ofTrees_grown rfl children [] {} ⟨.nil, .nil, fun _ h => nomatch h⟩)
      exact .mk rfl trivial (List.forall_mem_cons.mpr ⟨typeParams,
        List.forall_mem_cons.mpr ⟨params, List.forall_mem_singleton.mpr result⟩⟩) (fun _ h => nomatch h)
    · exact .error

theorem TypeExpr.ofTrees_grown {strict : Bool} {owner : Label}
    (owned : strict = true → owner.inherits = false) : ∀ ts : List Tree,
    Gives (fun xs => GrownRow strict owner ts (xs.map .type)) (TypeExpr.ofTrees ts)
  | [] => .ok .nil
  | .leaf .. :: rest => fun xs h => .skip (TypeExpr.ofTrees_grown owned rest xs h)
  | .node label loc children :: rest =>
    (TypeExpr.ofTree_grown (.node label loc children)).read.bind fun _ ⟨read, here⟩ =>
      (TypeExpr.ofTrees_grown owned rest).bind fun _ further => .ok (.take owned read here further)

theorem TypeExpr.firstIn?_grown {strict : Bool} {owner : Label}
    (owned : strict = true → owner.inherits = false) : ∀ (ts : List Tree), ∀ r ∈ TypeExpr.firstIn? ts,
    Gives (fun x => GrownRow strict owner ts [.type x]) r
  | [], _, h => nomatch h
  | .leaf .. :: rest, r, h => fun x e => .skip (TypeExpr.firstIn?_grown owned rest r h x e)
  | .node label loc children :: rest, r, h => by
    cases h
    exact fun x e => .one (n := .type _) owned e (TypeExpr.ofTree_grown (.node label loc children) x e) rest

theorem TypeExpr.argumentsIn_grown {strict : Bool} {owner : Label} : ∀ ts : List Tree,
    Gives (fun xs => GrownRow strict owner ts (xs.map .type)) (TypeExpr.argumentsIn ts)
  | [] => .ok .nil
  | .leaf .. :: rest => fun xs h => .skip (TypeExpr.argumentsIn_grown rest xs h)
  | .node label loc children :: rest => by
    rw [TypeExpr.argumentsIn]
    split
    · rename_i e
      subst e
      exact fun xs h => .under (TypeExpr.ofTrees_grown (fun _ => rfl) children xs h) rest
    · exact fun xs h => .skip (TypeExpr.argumentsIn_grown rest xs h)

theorem TypeExpr.ascriptionIn_grown {strict : Bool} {owner : Label} : ∀ ts : List Tree,
    Gives (fun t => GrownRow strict owner ts (TypeExpr.toNodes t)) (TypeExpr.ascriptionIn ts)
  | [] => .ok .nil
  | .leaf .. :: rest => fun xs h => .skip (TypeExpr.ascriptionIn_grown rest xs h)
  | .node label loc children :: rest => by
    rw [TypeExpr.ascriptionIn]
    split
    · rename_i e
      subst e
      cases e : TypeExpr.firstIn? children with
      | none => exact .error
      | some r =>
        exact (TypeExpr.firstIn?_grown (fun _ => rfl) children r e).bind fun _ first =>
          .ok (.under first rest)
    · exact fun xs h => .skip (TypeExpr.ascriptionIn_grown rest xs h)

theorem TypeExpr.keyTypeIn?_grown {strict : Bool} {owner : Label}
    (owned : strict = true → owner.inherits = false) : ∀ (ts : List Tree), ∀ r ∈ TypeExpr.keyTypeIn? ts,
    Gives (fun x => GrownRow strict owner ts [.type x]) r
  | [], _, h => nomatch h
  | .leaf .. :: rest, r, h => fun x e => .skip (TypeExpr.keyTypeIn?_grown owned rest r h x e)
  | .node label loc children :: rest, r, h => by
    rw [TypeExpr.keyTypeIn?] at h
    split at h
    · cases h
      exact fun x e => .one (n := .type _) owned e (TypeExpr.ofTree_grown (.node label loc children) x e) rest
    · exact fun x e => .skip (TypeExpr.keyTypeIn?_grown owned rest r h x e)

theorem TypeParam.ofTrees_grown {strict : Bool} {owner : Label} : ∀ ts : List Tree,
    Gives (fun xs => GrownRow strict owner ts (TypeParam.bounds xs)) (TypeParam.ofTrees ts)
  | [] => .ok .nil
  | .leaf .. :: rest => fun xs h => .skip (TypeParam.ofTrees_grown rest xs h)
  | .node label loc children :: rest => by
    rw [TypeParam.ofTrees]
    split
    · rename_i e
      subst e
      refine .skip fun _ => ?_
      cases e : TypeExpr.firstIn? children with
      | none => exact (TypeParam.ofTrees_grown rest).bind fun _ further => .ok (.skip further)
      | some r =>
        exact (TypeExpr.firstIn?_grown (fun _ => rfl) children r e).bind fun _ first =>
          (TypeParam.ofTrees_grown rest).bind fun _ further => .ok (.inner first further)
    · exact fun xs h => .skip (TypeParam.ofTrees_grown rest xs h)

theorem Param.ofTrees_grown {strict : Bool} {owner : Label}
    (owned : strict = true → owner.inherits = false) : ∀ ts : List Tree,
    Gives (fun xs => GrownRow strict owner ts (xs.map .param)) (Param.ofTrees ts)
  | [] => .ok .nil
  | .leaf .. :: rest => fun xs h => .skip (Param.ofTrees_grown owned rest xs h)
  | .node label loc children :: rest => by
    rw [Param.ofTrees]
    refine (Tree.token_gives label loc .NAME children).bind fun _ spelled =>
      (@TypeExpr.ascriptionIn_grown true label children).bind fun _ ascribed => ?_
    split
    · exact (Param.ofTrees_grown owned rest).bind fun _ further => .ok (.take owned trivial
        (.mk rfl spelled (List.forall_mem_singleton.mpr ascribed) (fun _ h => nomatch h)) further)
    · exact .skip fun _ => (Param.ofTrees_grown owned rest).bind fun _ further => .ok (.take owned trivial
        (.mk rfl spelled (List.forall_mem_singleton.mpr ascribed) (fun _ h => nomatch h)) further)

theorem FunctionParts.ofTrees_grown {owner : Label} (owned : owner.inherits = false) :
    ∀ (ts front : List Tree) (parts : FunctionParts), FunctionParts.GrownIn owner front parts →
      Gives (FunctionParts.GrownIn owner (front ++ ts)) (FunctionParts.ofTrees parts ts)
  | [], front, parts, h => .ok (by rwa [List.append_nil])
  | .leaf kind text loc :: rest, front, parts, h => by
    rw [List.append_cons]
    exact FunctionParts.ofTrees_grown owned rest _ parts ⟨h.typeParams.before _, h.params.before _,
      fun r hr x e => (h.result r hr x e).before _⟩
  | .node label loc children :: rest, front, parts, h => by
    rw [List.append_cons, FunctionParts.ofTrees]
    split
    · exact (TypeParam.ofTrees_grown children).bind fun _ typeParams =>
        FunctionParts.ofTrees_grown owned rest _ _ ⟨.last front (.under typeParams []), h.params.before _,
          fun r hr x e => (h.result r hr x e).before _⟩
    · split
      · rename_i e
        subst e
        exact (Param.ofTrees_grown (fun _ => rfl) children).bind fun _ params =>
          FunctionParts.ofTrees_grown owned rest _ _ ⟨h.typeParams.before _, .last front (.under params []),
            fun r hr x e => (h.result r hr x e).before _⟩
      · refine FunctionParts.ofTrees_grown owned rest _ _ ⟨h.typeParams.before _, h.params.before _, ?_⟩
        rintro r ⟨⟩ x e
        exact .last front (.one (n := .type _) (fun _ => owned) e (TypeExpr.ofTree_grown (.node label loc children) x e) [])

theorem Signature.headsIn_grown {owner : Label} :
    ∀ (ts front : List Tree) (heads : List TypeParam × List Param), Signature.HeadsIn owner front heads →
      Gives (Signature.HeadsIn owner (front ++ ts)) (Signature.headsIn heads ts)
  | [], front, heads, h => .ok (by rwa [List.append_nil])
  | .leaf kind text loc :: rest, front, heads, h => by
    rw [List.append_cons]
    exact Signature.headsIn_grown rest _ heads ⟨h.1.before _, h.2.before _⟩
  | .node label loc children :: rest, front, heads, h => by
    rw [List.append_cons, Signature.headsIn]
    split
    · exact (TypeParam.ofTrees_grown children).bind fun _ typeParams =>
        Signature.headsIn_grown rest _ _ ⟨.last front (.under typeParams []), h.2.before _⟩
    · split
      · rename_i e
        subst e
        exact (Param.ofTrees_grown (fun _ => rfl) children).bind fun _ params =>
          Signature.headsIn_grown rest _ _ ⟨h.1.before _, .last front (.under params [])⟩
      · exact Signature.headsIn_grown rest _ heads ⟨h.1.before _, h.2.before _⟩

theorem Signature.callIn_grown {owner : Label} (label : Label) (loc : Loc) : ∀ ts : List Tree,
    Gives (Signature.GrownIn owner ts) (Signature.callIn label loc ts)
  | [] => .error
  | .leaf .. :: rest => fun s h row hr => .skip (Signature.callIn_grown label loc rest s h row hr)
  | .node inner _ children :: rest => by
    rw [Signature.callIn]
    split
    · exact fun s h row hr => .under (@Signature.ofParts_grown inner _ _ _
        (Signature.headsIn_grown children [] ([], []) ⟨.nil, .nil⟩)
        (TypeExpr.ascriptionIn_grown children) s h row hr) rest
    · exact fun s h row hr => .skip (Signature.callIn_grown label loc rest s h row hr)

theorem TypeMember.ofTree_grown : ∀ t : Tree, Gives (fun x => Grown t (.member x)) (TypeMember.ofTree t)
  | .leaf .. => .error
  | .node label loc children => by
    unfold TypeMember.ofTree
    split
    · exact .skip fun _ => (TypeExpr.ascriptionIn_grown children).bind fun _ ascribed =>
        .ok (.mk rfl trivial (List.forall_mem_singleton.mpr ascribed) (fun _ h => nomatch h))
    · exact .skip fun _ => (Signature.callIn_grown _ loc children).bind fun _ signature =>
        .ok (.mk rfl trivial signature (fun _ h => nomatch h))
    · exact (Signature.ofParts_grown (Signature.headsIn_grown children [] ([], []) ⟨.nil, .nil⟩)
        (TypeExpr.ascriptionIn_grown children)).bind fun _ signature =>
          .ok (.mk rfl trivial signature (fun _ h => nomatch h))
    · exact (Signature.ofParts_grown (Signature.headsIn_grown children [] ([], []) ⟨.nil, .nil⟩)
        (TypeExpr.ascriptionIn_grown children)).bind fun _ signature =>
          .ok (.mk rfl trivial signature (fun _ h => nomatch h))
    · exact TypeMember.indexOfParts_grown (TypeExpr.keyTypeIn?_grown (fun _ => rfl) children)
        (TypeExpr.ascriptionIn_grown children)
    · exact .error

theorem TypeMember.ofTrees_grown {strict : Bool} {owner : Label}
    (owned : strict = true → owner.inherits = false) : ∀ ts : List Tree,
    Gives (fun xs => GrownRow strict owner ts (xs.map .member)) (TypeMember.ofTrees ts)
  | [] => .ok .nil
  | .leaf .. :: rest => fun xs h => .skip (TypeMember.ofTrees_grown owned rest xs h)
  | .node label loc children :: rest =>
    (TypeMember.ofTree_grown (.node label loc children)).bind fun _ here =>
      (TypeMember.ofTrees_grown owned rest).bind fun _ further => .ok (.take owned trivial here further)

end

/-! ## Interfaces and classes -/

/-- the parts of an interface are in a row of trees -/
structure InterfaceDecl.GrownIn (ts : List Tree) (decl : InterfaceDecl) : Prop where
  typeParams : GrownRow true (.phrase .interfaceDeclaration) ts (TypeParam.bounds decl.typeParams)
  members : GrownRow true (.phrase .interfaceDeclaration) ts (decl.members.map .member)
  bases : GrownRow false (.phrase .interfaceDeclaration) ts (decl.bases.map .type)

theorem InterfaceDecl.addTrees_grown : ∀ (ts front : List Tree) (decl : InterfaceDecl),
    GrownIn front decl → Gives (fun x => GrownIn (front ++ ts) x ∧ x.loc = decl.loc ∧ x.name = decl.name)
      (decl.addTrees ts)
  | [], front, decl, h => .ok ⟨by rwa [List.append_nil], rfl, rfl⟩
  | .leaf kind text loc :: rest, front, decl, h => by
    rw [List.append_cons]
    exact addTrees_grown rest _ decl ⟨h.typeParams.before _, h.members.before _, h.bases.before _⟩
  | .node label loc children :: rest, front, decl, h => by
    rw [List.append_cons, addTrees]
    split
    · exact (TypeParam.ofTrees_grown children).bind fun _ typeParams =>
        addTrees_grown rest _ { decl with typeParams := _ }
          ⟨.last front (.under typeParams []), h.members.before _, h.bases.before _⟩
    · split
      · exact (@TypeExpr.ofTrees_grown false label (fun e => nomatch e) children).bind fun _ bases =>
          addTrees_grown rest _ { decl with bases := _ }
            ⟨h.typeParams.before _, h.members.before _, .last front (.under bases [])⟩
      · split
        · rename_i e
          subst e
          exact (TypeMember.ofTrees_grown (fun _ => rfl) children).bind fun _ members =>
            addTrees_grown rest _ { decl with members := _ }
              ⟨h.typeParams.before _, .last front (.under members []), h.bases.before _⟩
        · exact addTrees_grown rest _ decl ⟨h.typeParams.before _, h.members.before _, h.bases.before _⟩

theorem InterfaceDecl.ofChildren_grown (loc : Loc) (children : List Tree) :
    Gives (fun x => Grown (.node (.phrase .interfaceDeclaration) loc children) (.interface x))
      (InterfaceDecl.ofChildren loc children) :=
  (Tree.token_gives _ loc .NAME children).bind fun name spelled x h => by
    obtain ⟨grown, place, same⟩ :=
      InterfaceDecl.addTrees_grown children [] ⟨loc, name, [], [], []⟩ ⟨.nil, .nil, .nil⟩ x h
    refine .mk (congrArg some place) ?_ (List.forall_mem_cons.mpr ⟨grown.typeParams,
      List.forall_mem_singleton.mpr grown.members⟩) (List.forall_mem_singleton.mpr grown.bases)
    show Tree.token? .NAME children = some x.name
    rw [same, spelled]

theorem ClassMember.ofNode_grown (label : Label) (loc : Loc) (children : List Tree) :
    Gives (fun x => Grown (.node label loc children) (.classMember x))
      (ClassMember.ofNode label loc children) := by
  unfold ClassMember.ofNode
  refine .skip fun _ => ?_
  split
  · cases found : Tree.child? .parameterList children with
    | none => exact .ok (.mk rfl trivial (List.forall_mem_singleton.mpr (.none children)) (fun _ h => nomatch h))
    | some parts =>
      exact (Param.ofTrees_grown (fun _ => rfl) parts.2).bind fun _ params => .ok (.mk rfl trivial
        (List.forall_mem_singleton.mpr (.child found params)) (fun _ h => nomatch h))
  · exact .skip fun _ => (Signature.callIn_grown _ loc children).bind fun _ signature =>
      .ok (.mk rfl trivial signature (fun _ h => nomatch h))
  · exact .skip fun _ => (TypeExpr.ascriptionIn_grown children).bind fun _ ascribed =>
      .ok (.mk rfl trivial (List.forall_mem_singleton.mpr ascribed) (fun _ h => nomatch h))
  · refine (Tree.child_gives _ loc .indexSignature children).bind fun parts found =>
      Gives.bind (P := fun x => Grown (.node (.phrase .indexSignature) parts.1 parts.2) (.member x)) ?_
        fun _ signature => .ok (.mk rfl trivial
          (List.forall_mem_singleton.mpr (.ofChild found (fun _ => rfl) trivial signature)) (fun _ h => nomatch h))
    exact TypeMember.indexOfParts_grown (TypeExpr.keyTypeIn?_grown (fun _ => rfl) parts.2)
      (TypeExpr.ascriptionIn_grown parts.2)
  · exact .error

/-- the parts of a class are in a row of trees -/
structure ClassParts.GrownIn (ts : List Tree) (parts : ClassParts) : Prop where
  typeParams : GrownRow true (.phrase .ambientClass) ts (TypeParam.bounds parts.typeParams)
  members : GrownRow true (.phrase .ambientClass) ts (parts.members.map .classMember)
  base : GrownRow false (.phrase .ambientClass) ts (TypeExpr.toNodes parts.base)
  implements : GrownRow false (.phrase .ambientClass) ts (parts.implements.map .type)

theorem TypeExpr.baseIn_grown {owner : Label} (loc : Loc) : ∀ ts : List Tree,
    Gives (fun x => GrownRow false owner ts [.type x]) (TypeExpr.baseIn loc ts)
  | [] => .error
  | .leaf .. :: rest => fun x h => .skip (TypeExpr.baseIn_grown loc rest x h)
  | .node label childLoc children :: rest => by
    rw [TypeExpr.baseIn]
    split
    · intro x h
      have free : false = true → owner.inherits = false := fun e => nomatch e
      exact .one (n := .type _) free h (TypeExpr.ofTree_grown (.node label childLoc children) x h) rest
    · exact fun x h => .skip (TypeExpr.baseIn_grown loc rest x h)

theorem ClassParts.addTrees_grown : ∀ (ts front : List Tree) (parts : ClassParts),
    GrownIn front parts → Gives (GrownIn (front ++ ts)) (parts.addTrees ts)
  | [], front, parts, h => .ok (by rwa [List.append_nil])
  | .leaf kind text loc :: rest, front, parts, h => by
    rw [List.append_cons]
    exact addTrees_grown rest _ parts
      ⟨h.typeParams.before _, h.members.before _, h.base.before _, h.implements.before _⟩
  | .node label loc children :: rest, front, parts, h => by
    rw [List.append_cons, addTrees]
    split
    · exact (TypeParam.ofTrees_grown children).bind fun _ typeParams => addTrees_grown rest _ _
        ⟨.last front (.under typeParams []), h.members.before _, h.base.before _, h.implements.before _⟩
    · split
      · exact (@TypeExpr.baseIn_grown label loc children).bind fun _ base => addTrees_grown rest _ _
          ⟨h.typeParams.before _, h.members.before _, .last front (.under base []),
            h.implements.before _⟩
      · split
        · exact (@TypeExpr.ofTrees_grown false label (fun e => nomatch e) children).bind fun _ implements =>
            addTrees_grown rest _ _ ⟨h.typeParams.before _, h.members.before _, h.base.before _,
              .last front (.under implements [])⟩
        · refine (ClassMember.ofNode_grown label loc children).bind fun member here =>
            addTrees_grown rest _ _ ⟨h.typeParams.before _, ?_, h.base.before _, h.implements.before _⟩
          rw [List.map_append]
          exact GrownRow.append (.one (n := .classMember member) (fun _ => rfl) trivial here []) h.members

/-! ## Imports and exports -/

theorem ModuleLink.ofNode?_grown (label : Label) (loc : Loc) (children : List Tree) :
    Gives (fun x => ∀ l ∈ x, Grown (.node label loc children) (.element (.link l)))
      (ModuleLink.ofNode? label loc children) := by
  have grown : ∀ l : ModuleLink, l.loc = loc → Grown (.node label loc children) (.element (.link l)) :=
    fun l place => .mk (congrArg some place) trivial (fun _ h => nomatch h) (fun _ h => nomatch h)
  have good : ∀ {l : ModuleLink}, l.loc = loc → Gives
      (fun x => ∀ l ∈ x, Grown (.node label loc children) (.element (.link l))) (.ok (some l)) := by
    intro l place
    refine .ok ?_
    rintro _ ⟨⟩
    exact grown l place
  unfold ModuleLink.ofNode?
  split
  · exact .skip fun _ => .skip fun _ => good rfl
  · exact .skip fun _ => .skip fun _ => good rfl
  · exact .skip fun _ => .skip fun _ => good rfl
  · exact .skip fun _ => good rfl
  · exact .skip fun _ => good rfl
  · refine .skip fun _ => .skip fun _ => ?_
    cases Tree.literal? children with
    | none => exact good rfl
    | some value => exact .skip fun _ => good rfl
  · exact .ok fun _ h => nomatch h

/-! ## Declarations -/

mutual

theorem AmbientDecl.ofTree_grown : ∀ t : Tree, Gives (fun x => Grown t (.ambient x)) (AmbientDecl.ofTree t)
  | .leaf .. => .error
  | .node label loc children => by
    unfold AmbientDecl.ofTree
    split
    · exact .skip fun _ => (TypeExpr.ascriptionIn_grown children).bind fun _ ascribed =>
        .ok (.mk rfl trivial (List.forall_mem_singleton.mpr ascribed) (fun _ h => nomatch h))
    · exact .skip fun _ => (Signature.callIn_grown _ loc children).bind fun _ signature =>
        .ok (.mk rfl trivial signature (fun _ h => nomatch h))
    · exact (Tree.token_gives _ loc .NAME children).bind fun _ spelled =>
        (ClassParts.addTrees_grown children [] {} ⟨.nil, .nil, .nil, .nil⟩).bind fun parts grown =>
          .ok (.mk rfl spelled (List.forall_mem_cons.mpr ⟨grown.typeParams,
            List.forall_mem_singleton.mpr grown.members⟩) (List.forall_mem_cons.mpr ⟨grown.base,
              List.forall_mem_singleton.mpr grown.implements⟩))
    · exact (Tree.child_gives _ loc .interfaceDeclaration children).bind fun parts found =>
        (InterfaceDecl.ofChildren_grown parts.1 parts.2).bind fun _ decl => .ok (.mk rfl trivial
          (List.forall_mem_singleton.mpr (.ofChild found (fun _ => rfl) trivial decl)) (fun _ h => nomatch h))
    · exact .skip fun _ => .skip fun _ => .ok (.mk rfl trivial (fun _ h => nomatch h) (fun _ h => nomatch h))
    · exact .skip fun _ => .skip fun _ =>
        (ModuleElement.ofTrees_grown rfl children true).bind fun _ elements => .ok (.mk rfl trivial
          (List.forall_mem_singleton.mpr elements) (fun _ h => nomatch h))
    · exact .error

theorem AmbientDecl.firstIn?_grown {strict : Bool} {owner : Label}
    (owned : strict = true → owner.inherits = false) : ∀ (ts : List Tree), ∀ r ∈ AmbientDecl.firstIn? ts,
    Gives (fun x => GrownRow strict owner ts [.ambient x]) r
  | [], _, h => nomatch h
  | .leaf .. :: rest, r, h => fun x e => .skip (AmbientDecl.firstIn?_grown owned rest r h x e)
  | .node label loc children :: rest, r, h => by
    cases h
    exact fun x e => .one (n := .ambient x) owned trivial (AmbientDecl.ofTree_grown (.node label loc children) x e) rest

theorem ModuleElement.ofTrees_grown {owner : Label} (owned : owner.inherits = false) :
    ∀ (ts : List Tree) (skipName : Bool),
    Gives (fun xs => GrownRow true owner ts (xs.map ModuleElement.node)) (ModuleElement.ofTrees skipName ts)
  | [], _ => .ok .nil
  | .leaf .. :: rest, skipName => fun xs h => .skip (ModuleElement.ofTrees_grown owned rest skipName xs h)
  | .node label loc children :: rest, skipName => by
    rw [ModuleElement.ofTrees]
    split
    · exact fun xs h => .skip (ModuleElement.ofTrees_grown owned rest false xs h)
    · split
      · rename_i e
        subst e
        cases e : AmbientDecl.firstIn? children with
        | none => exact .error
        | some r =>
          exact (AmbientDecl.firstIn?_grown (fun _ => rfl) children r e).bind fun _ first =>
            (ModuleElement.ofTrees_grown owned rest skipName).bind fun _ further =>
              .ok (.inner first further)
      · refine (ModuleLink.ofNode?_grown label loc children).bind fun link here => ?_
        cases link with
        | none => exact .error
        | some link =>
          exact (ModuleElement.ofTrees_grown owned rest skipName).bind fun _ further =>
            .ok (.take (fun _ => owned) trivial (here link rfl) further)

end

theorem Element.ofNode?_grown (label : Label) (loc : Loc) (children : List Tree) :
    Gives (fun x => ∀ e ∈ x, Grown (.node label loc children) (Node.ofElement e))
      (Element.ofNode? label loc children) := by
  unfold Element.ofNode?
  split
  · refine (Tree.child_gives _ loc .interfaceDeclaration children).bind fun parts found =>
      (InterfaceDecl.ofChildren_grown parts.1 parts.2).bind fun _ decl => .ok ?_
    rintro _ ⟨⟩
    exact .mk rfl trivial (List.forall_mem_singleton.mpr (.ofChild found (fun _ => rfl) trivial decl))
      (fun _ h => nomatch h)
  · cases e : AmbientDecl.firstIn? children with
    | none => exact .error
    | some r =>
      refine (@AmbientDecl.firstIn?_grown true (.phrase .ambientElement) (fun _ => rfl) children r e).bind
        fun _ first => .ok ?_
      rintro _ ⟨⟩
      exact .mk rfl trivial (List.forall_mem_singleton.mpr first) (fun _ h => nomatch h)
  · refine (ModuleLink.ofNode?_grown label loc children).bind fun link here => .ok ?_
    cases link with
    | none => exact fun _ h => nomatch h
    | some link =>
      rintro _ ⟨⟩
      exact here link rfl

theorem Element.node_readFrom (t : Tree) : ∀ e : Element, (Node.ofElement e).ReadFrom t
  | .interfaceElement .. | .ambientElement .. | .bare _ | .link _ | .unknown => trivial

/-- the elements of a file stand in the row of their trees -/
theorem Element.ofTrees_grown {owner : Label} (owned : owner.inherits = false) : ∀ ts : List Tree,
    Gives (fun xs => GrownRow true owner ts (xs.map Node.ofElement)) (Element.ofTrees ts)
  | [] => .ok .nil
  | .leaf .. :: rest => fun xs h => .skip (Element.ofTrees_grown owned rest xs h)
  | .node label loc children :: rest => by
    refine (Element.ofNode?_grown label loc children).bind fun element here =>
      (Element.ofTrees_grown owned rest).bind fun _ further => .ok ?_
    cases element with
    | none => exact .skip further
    | some element => exact .take (fun _ => owned) (element.node_readFrom _) (here element rfl) further

end Typings
