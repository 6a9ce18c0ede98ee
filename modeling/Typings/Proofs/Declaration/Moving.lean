import Typings.Model.OfDeclaration
import Typings.Proofs.Syntax.Placing
/-!
# Declarations in other places

Places are the only thing that changes in the declarations of a tree when the tree is moved.

* `TypeExpr.moved f`, …, `SourceFile.moved f`     each place changed by `f`;
* `Tree.moved f`                                  the same for trees;
* `Derivation.trees_map`                          moving the tokens moves the trees;
* `Element.lower_moved`, `SourceFile.lower_moved`   the class model has no places.
-/

namespace Typings

/-- every place as the first one -/
def Loc.first (_ : Loc) : Loc := Cursor.start.loc

/-! ## Declarations -/

mutual

def TypeExpr.moved (f : Loc → Loc) : TypeExpr → TypeExpr
  | .predefined loc name => .predefined (f loc) name
  | .reference loc name args => .reference (f loc) name (TypeExpr.movedAll f args)
  | .query loc name => .query (f loc) name
  | .object loc members => .object (f loc) (TypeMember.movedAll f members)
  | .array loc element => .array (f loc) (TypeExpr.moved f element)
  | .function loc typeParams params result =>
    .function (f loc) (TypeParam.movedAll f typeParams) (Param.movedAll f params) (TypeExpr.moved f result)
  | .construct loc typeParams params result =>
    .construct (f loc) (TypeParam.movedAll f typeParams) (Param.movedAll f params) (TypeExpr.moved f result)
  | .unknown => .unknown

def TypeExpr.movedAll (f : Loc → Loc) : List TypeExpr → List TypeExpr
  | [] => []
  | t :: rest => TypeExpr.moved f t :: TypeExpr.movedAll f rest

def TypeExpr.movedOption (f : Loc → Loc) : Option TypeExpr → Option TypeExpr
  | none => none
  | some t => some (TypeExpr.moved f t)

def TypeParam.moved (f : Loc → Loc) : TypeParam → TypeParam
  | .mk name bound => .mk name (TypeExpr.movedOption f bound)

def TypeParam.movedAll (f : Loc → Loc) : List TypeParam → List TypeParam
  | [] => []
  | p :: rest => TypeParam.moved f p :: TypeParam.movedAll f rest

def Param.moved (f : Loc → Loc) : Param → Param
  | .single loc name type optional accessibility =>
    .single (f loc) name (TypeExpr.movedOption f type) optional accessibility
  | .rest loc name type => .rest (f loc) name (TypeExpr.movedOption f type)

def Param.movedAll (f : Loc → Loc) : List Param → List Param
  | [] => []
  | p :: rest => Param.moved f p :: Param.movedAll f rest

def Signature.moved (f : Loc → Loc) : Signature → Signature
  | .mk typeParams params result =>
    .mk (TypeParam.movedAll f typeParams) (Param.movedAll f params) (TypeExpr.movedOption f result)

def TypeMember.moved (f : Loc → Loc) : TypeMember → TypeMember
  | .property loc name type optional => .property (f loc) name (TypeExpr.movedOption f type) optional
  | .method loc name signature optional => .method (f loc) name (Signature.moved f signature) optional
  | .call loc signature => .call (f loc) (Signature.moved f signature)
  | .construct loc signature => .construct (f loc) (Signature.moved f signature)
  | .index loc key keyType valueType =>
    .index (f loc) key (TypeExpr.moved f keyType) (TypeExpr.moved f valueType)
  | .unknown => .unknown

def TypeMember.movedAll (f : Loc → Loc) : List TypeMember → List TypeMember
  | [] => []
  | m :: rest => TypeMember.moved f m :: TypeMember.movedAll f rest

end

def InterfaceDecl.moved (f : Loc → Loc) (decl : InterfaceDecl) : InterfaceDecl where
  loc := f decl.loc
  name := decl.name
  typeParams := TypeParam.movedAll f decl.typeParams
  bases := TypeExpr.movedAll f decl.bases
  members := TypeMember.movedAll f decl.members

def ClassMember.moved (f : Loc → Loc) : ClassMember → ClassMember
  | .initializer loc params accessibility => .initializer (f loc) (Param.movedAll f params) accessibility
  | .method loc name signature optional static accessibility =>
    .method (f loc) name (signature.moved f) optional static accessibility
  | .field loc name type optional static accessibility =>
    .field (f loc) name (TypeExpr.movedOption f type) optional static accessibility
  | .index loc signature => .index (f loc) (signature.moved f)
  | .unknown => .unknown

def ModuleLink.moved (f : Loc → Loc) : ModuleLink → ModuleLink
  | .importAlias loc name entity exported => .importAlias (f loc) name entity exported
  | .importRequire loc name source exported => .importRequire (f loc) name source exported
  | .importFrom loc source byDefault wholeName bindings =>
    .importFrom (f loc) source byDefault wholeName bindings
  | .exportAssign loc entity => .exportAssign (f loc) entity
  | .exportDefault loc entity => .exportDefault (f loc) entity
  | .exportList loc bindings source => .exportList (f loc) bindings source

mutual

def AmbientDecl.moved (f : Loc → Loc) : AmbientDecl → AmbientDecl
  | .variableDecl loc name type => .variableDecl (f loc) name (TypeExpr.movedOption f type)
  | .functionDecl loc name signature => .functionDecl (f loc) name (signature.moved f)
  | .classDecl loc name typeParams base implements members =>
    .classDecl (f loc) name (TypeParam.movedAll f typeParams) (TypeExpr.movedOption f base)
      (TypeExpr.movedAll f implements) (members.map (ClassMember.moved f))
  | .interfaceDecl loc decl => .interfaceDecl (f loc) (decl.moved f)
  | .enumDecl loc name members constant => .enumDecl (f loc) name members constant
  | .moduleDecl loc path elements => .moduleDecl (f loc) path (ModuleElement.movedAll f elements)
  | .unknown => .unknown

def Element.moved (f : Loc → Loc) : Element → Element
  | .interfaceElement loc exported decl => .interfaceElement (f loc) exported (decl.moved f)
  | .ambientElement loc exported decl => .ambientElement (f loc) exported (AmbientDecl.moved f decl)
  | .bare decl => .bare (AmbientDecl.moved f decl)
  | .link link => .link (link.moved f)
  | .unknown => .unknown

def ModuleElement.moved (f : Loc → Loc) : ModuleElement → ModuleElement
  | .mk exported element => .mk exported (Element.moved f element)

def ModuleElement.movedAll (f : Loc → Loc) : List ModuleElement → List ModuleElement
  | [] => []
  | e :: rest => ModuleElement.moved f e :: ModuleElement.movedAll f rest

end

def SourceFile.moved (f : Loc → Loc) (file : SourceFile) : SourceFile :=
  ⟨file.elements.map (Element.moved f)⟩

/-! ## Trees -/

mutual

def Tree.moved (f : Loc → Loc) : Tree → Tree
  | .leaf kind text loc => .leaf kind text (f loc)
  | .node label loc children => .node label (f loc) (Tree.movedAll f children)

def Tree.movedAll (f : Loc → Loc) : List Tree → List Tree
  | [] => []
  | t :: rest => Tree.moved f t :: Tree.movedAll f rest

end

theorem Tree.movedAll_eq_map (f : Loc → Loc) (ts : List Tree) : movedAll f ts = ts.map (moved f) := by
  induction ts with
  | nil => rfl
  | cons t ts ih => rw [movedAll, ih, List.map_cons]

namespace Derivation

/-- a derivation of a phrase other than a file has a token -/
theorem tokens_ne_nil : ∀ {d : Derivation}, d.Valid → d.root ≠ .nonterminal .file → d.tokens ≠ []
  | .leaf _, _, _ => List.cons_ne_nil _ _
  | .node p [], .node mem roots _, part =>
    absurd (congrArg _ (Automaton.eq_file_of_rhs_nil p mem roots.symm)) part
  | .node p (e :: rest), .node mem roots (.cons here _), _ => by
    have inRhs : e.root ∈ p.rhs := by
      rw [← roots]
      exact List.mem_cons_self
    have part : e.root ≠ .nonterminal .file := fun isFile =>
      Automaton.file_not_mem_rhs p mem (isFile ▸ inRhs)
    exact List.append_ne_nil_of_left_ne_nil (tokens_ne_nil here part) _

mutual

theorem start?_eq : ∀ d : Derivation, d.start? = d.tokens.head?.map (·.start)
  | .leaf _ => rfl
  | .node _ parts => startOf?_eq parts

theorem startOf?_eq : ∀ ds, startOf? ds = (tokensOf ds).head?.map (·.start)
  | [] => rfl
  | d :: rest => by
    rw [startOf?, tokensOf, start?_eq d, startOf?_eq rest]
    cases d.tokens <;> rfl

end

theorem loc_map {f : Token → Token} {g : Loc → Loc} (locs : ∀ t, (f t).start.loc = g t.start.loc)
    {d : Derivation} (valid : d.Valid) (part : d.root ≠ .nonterminal .file) :
    (d.map f).loc = g d.loc := by
  obtain ⟨t, ts, e⟩ := List.exists_cons_of_ne_nil (tokens_ne_nil valid part)
  rw [loc, loc, start?_eq, start?_eq, tokens_map, e]
  exact locs t

theorem movedAll_shown (g : Loc → Loc) (n : Nonterminal) (loc : Loc) (children : List Tree) :
    Tree.movedAll g (shown n loc children) = shown n (g loc) (Tree.movedAll g children) := by
  unfold shown
  cases n.shape with
  | spliced => rfl
  | transparent =>
    match children with
    | [] => rfl
    | [_] => rfl
    | _ :: _ :: _ => rfl
  | node => rfl

theorem movedAll_append (g : Loc → Loc) (ts us : List Tree) :
    Tree.movedAll g (ts ++ us) = Tree.movedAll g ts ++ Tree.movedAll g us := by
  rw [Tree.movedAll_eq_map, Tree.movedAll_eq_map, Tree.movedAll_eq_map, List.map_append]

mutual

/-- moving the tokens moves the trees -/
theorem trees_map {f : Token → Token} {g : Loc → Loc} (kinds : ∀ t, (f t).kind = t.kind)
    (texts : ∀ t, (f t).text = t.text) (locs : ∀ t, (f t).start.loc = g t.start.loc) :
    ∀ d : Derivation, d.Valid → d.root ≠ .nonterminal .file → (d.map f).trees = Tree.movedAll g d.trees
  | .leaf token, _, _ => by
    rw [map, trees, trees, kinds, texts, locs]
    split <;> rfl
  | .node p parts, valid, part => by
    have here := loc_map locs valid part
    cases valid with
    | node mem roots valids =>
      rw [trees, movedAll_shown, ← here]
      show shown p.lhs (node p (mapAll f parts)).loc (treesOf (mapAll f parts)) = _
      rw [treesOf_mapAll kinds texts locs parts valids fun isFile =>
        Automaton.file_not_mem_rhs p mem (roots ▸ isFile)]
      rfl

theorem treesOf_mapAll {f : Token → Token} {g : Loc → Loc} (kinds : ∀ t, (f t).kind = t.kind)
    (texts : ∀ t, (f t).text = t.text) (locs : ∀ t, (f t).start.loc = g t.start.loc) :
    ∀ ds : List Derivation, AllValid ds → .nonterminal .file ∉ ds.map root →
      treesOf (mapAll f ds) = Tree.movedAll g (treesOf ds)
  | [], _, _ => rfl
  | d :: rest, .cons valid valids, part => by
    rw [List.map_cons, List.mem_cons, not_or] at part
    rw [mapAll, treesOf, treesOf, movedAll_append, trees_map kinds texts locs d valid (Ne.symm part.1),
      treesOf_mapAll kinds texts locs rest valids part.2]

end

end Derivation

/-! ## The class model -/

section
variable (f : Loc → Loc)

mutual

theorem TypeRef.ofType?_moved : ∀ t : TypeExpr, TypeRef.ofType? (t.moved f) = TypeRef.ofType? t
  | .predefined .. | .query .. | .object .. | .function .. | .construct .. | .unknown => rfl
  | .reference _ name args => congrArg (fun args => some (TypeRef.mk name args)) (TypeRef.ofTypes_moved args)
  | .array _ element => congrArg (fun e => some (TypeRef.arrayOf e)) (TypeRef.ofType?_moved element)

theorem TypeRef.ofTypes_moved : ∀ ts, TypeRef.ofTypes (TypeExpr.movedAll f ts) = TypeRef.ofTypes ts
  | [] => rfl
  | t :: rest => by
    rw [TypeExpr.movedAll, TypeRef.ofTypes, TypeRef.ofTypes, TypeRef.ofType?_moved t,
      TypeRef.ofTypes_moved rest]

end

theorem TypeRef.ofOption?_moved (t : Option TypeExpr) :
    TypeRef.ofOption? (TypeExpr.movedOption f t) = TypeRef.ofOption? t := by
  cases t with
  | none => rfl
  | some t => exact TypeRef.ofType?_moved f t

theorem Param.movedAll_eq_map (ps : List Param) : Param.movedAll f ps = ps.map (Param.moved f) := by
  induction ps with
  | nil => rfl
  | cons p ps ih => rw [Param.movedAll, ih, List.map_cons]

theorem Param.lower_moved (p : Param) : (p.moved f).lower = p.lower := by
  have type : (p.moved f).type = TypeExpr.movedOption f p.type := by cases p <;> rfl
  have name : (p.moved f).name = p.name := by cases p <;> rfl
  rw [Param.lower, Param.lower, name, type, TypeRef.ofParam, TypeRef.ofOption?_moved, TypeRef.ofParam]

theorem Param.isRest_moved (p : Param) : (p.moved f).isRest = p.isRest := by
  cases p <;> rfl

theorem Method.ofSignature_moved (name : Text) (params : List Param) (result : Option TypeExpr) :
    Method.ofSignature name (Param.movedAll f params) (TypeExpr.movedOption f result) =
      Method.ofSignature name params result := by
  have rests : Param.isRest ∘ Param.moved f = Param.isRest := funext (Param.isRest_moved f)
  have others : (fun p => !p.isRest) ∘ Param.moved f = fun p => !p.isRest :=
    funext fun p => congrArg (! ·) (Param.isRest_moved f p)
  have lowers : Param.lower ∘ Param.moved f = Param.lower := funext (Param.lower_moved f)
  unfold Method.ofSignature Param.split
  rw [TypeRef.ofOption?_moved, Param.movedAll_eq_map, List.filter_map, List.find?_map, List.map_map,
    Option.map_map, rests, others, lowers]

theorem Method.ofMember?_moved (m : TypeMember) : Method.ofMember? (m.moved f) = Method.ofMember? m := by
  cases m with
  | method _ name signature _ =>
    cases signature with
    | mk _ params result => exact congrArg some (Method.ofSignature_moved f name params result)
  | property | call | construct | index | unknown => rfl

theorem Method.ofClassMember?_moved (m : ClassMember) :
    Method.ofClassMember? (m.moved f) = Method.ofClassMember? m := by
  cases m with
  | method _ name signature _ _ _ =>
    cases signature with
    | mk _ params result => exact congrArg some (Method.ofSignature_moved f name params result)
  | initializer | field | index | unknown => rfl

theorem Method.ofInitializer?_moved (m : ClassMember) :
    Method.ofInitializer? (m.moved f) = Method.ofInitializer? m := by
  cases m with
  | initializer _ params _ => exact congrArg some (Method.ofSignature_moved f "constructor" params none)
  | method | field | index | unknown => rfl

theorem TypeMember.filterMap_movedAll (ms : List TypeMember) :
    (TypeMember.movedAll f ms).filterMap Method.ofMember? = ms.filterMap Method.ofMember? := by
  induction ms with
  | nil => rfl
  | cons m ms ih => rw [TypeMember.movedAll, List.filterMap_cons, Method.ofMember?_moved, ih, List.filterMap_cons]

theorem ClassMember.filterMap_moved (ms : List ClassMember) :
    (ms.map (ClassMember.moved f)).filterMap Method.ofClassMember? = ms.filterMap Method.ofClassMember? ∧
      (ms.map (ClassMember.moved f)).filterMap Method.ofInitializer? = ms.filterMap Method.ofInitializer? := by
  rw [List.filterMap_map, List.filterMap_map]
  exact ⟨List.filterMap_congr fun m _ => Method.ofClassMember?_moved f m,
    List.filterMap_congr fun m _ => Method.ofInitializer?_moved f m⟩

theorem Class.ofInterface_moved (decl : InterfaceDecl) (exported : Bool) :
    Class.ofInterface (decl.moved f) exported = Class.ofInterface decl exported := by
  unfold Class.ofInterface
  rw [InterfaceDecl.moved, TypeMember.filterMap_movedAll]

mutual

theorem AmbientDecl.lower?_moved (exported : Bool) :
    ∀ decl : AmbientDecl, AmbientDecl.lower? exported (decl.moved f) = AmbientDecl.lower? exported decl
  | .variableDecl .. | .functionDecl .. | .enumDecl .. | .unknown => rfl
  | .classDecl _ name _ _ _ members => by
    obtain ⟨methods, initializers⟩ := ClassMember.filterMap_moved f members
    rw [AmbientDecl.moved, AmbientDecl.lower?, AmbientDecl.lower?, Class.warnings, Class.warnings,
      Class.ofClass, Class.ofClass, methods, initializers]
  | .interfaceDecl _ decl => by
    rw [AmbientDecl.moved, AmbientDecl.lower?, AmbientDecl.lower?, Class.ofInterface_moved]
  | .moduleDecl _ path elements => by
    rw [AmbientDecl.moved, AmbientDecl.lower?, AmbientDecl.lower?, ModuleElement.lowerAll_moved elements]

theorem ModuleElement.lowerAll_moved : ∀ elements : List ModuleElement,
    ModuleElement.lowerAll (ModuleElement.movedAll f elements) = ModuleElement.lowerAll elements
  | [] => rfl
  | .mk exported (.bare decl) :: rest => by
    rw [ModuleElement.movedAll, ModuleElement.moved, Element.moved, ModuleElement.lowerAll,
      ModuleElement.lowerAll, AmbientDecl.lower?_moved exported decl, ModuleElement.lowerAll_moved rest]
  | .mk _ (.interfaceElement ..) :: rest | .mk _ (.ambientElement ..) :: rest | .mk _ (.link _) :: rest
  | .mk _ .unknown :: rest => by
    rw [ModuleElement.movedAll, ModuleElement.moved, Element.moved, ModuleElement.lowerAll,
      ModuleElement.lowerAll, ModuleElement.lowerAll_moved rest]

end

theorem Element.lower_moved (e : Element) : (e.moved f).lower = e.lower := by
  cases e with
  | interfaceElement _ exported decl =>
    rw [Element.moved, Element.lower, Element.lower, Class.ofInterface_moved]
  | ambientElement _ exported decl =>
    rw [Element.moved, Element.lower, Element.lower, AmbientDecl.lower?_moved]
  | bare | link | unknown => rfl

theorem SourceFile.lower_moved (file : SourceFile) : (file.moved f).lower = file.lower := by
  rw [lower, lower, moved, List.map_map]
  exact congrArg Lowered.concat (List.map_congr_left fun e _ => Element.lower_moved f e)

end

end Typings
