import Typings.Proofs.Model.Sites
/-!
# What the class model does not depend on

Most of what a file says has no form in the model.  Erasing it, at every depth, does not change the
warnings and classes of the file.

* `TypeExpr.erase?`, `Param.erase`, `Signature.erase`     what is erased in types and signatures;
* `TypeMember.erase?`, `ClassMember.eraseAll`             in interfaces and classes;
* `AmbientDecl.erase?`, `SourceFile.erase`                in declarations and files;
* `SourceFile.lower_erase`                                erasing leaves the model as it is;
* `SourceFile.lower_congr`                                files with the same erasure have one model.
-/

namespace Typings

/-- the place of everything that is erased -/
def Loc.nowhere : Loc := ⟨0, 0⟩

/-! ## Erasing in types and signatures -/

mutual

/-- nothing is left of `void`, of function types and of the type of a value, an object type has no
members, and an array is the reference `Array` to its elements -/
def TypeExpr.erase? : TypeExpr → Option TypeExpr
  | .predefined _ name => if name = "void" then none else some (.predefined .nowhere name)
  | .reference _ name args => some (.reference .nowhere name (TypeExpr.eraseAll args))
  | .object _ _ => some (.object .nowhere [])
  | .array _ element => some (.reference .nowhere "Array" (TypeExpr.erase? element).toList)
  | .query .. | .function .. | .construct .. => none
  | .unknown => some .unknown

def TypeExpr.eraseAll : List TypeExpr → List TypeExpr
  | [] => []
  | t :: rest => (TypeExpr.erase? t).toList ++ TypeExpr.eraseAll rest

end

/-- the type that a parameter without a type has -/
def TypeExpr.isString : TypeExpr → Bool
  | .predefined _ name => name == "string"
  | .reference .. | .query .. | .object .. | .array .. | .function .. | .construct ..
  | .unknown => false

namespace Param

def eraseType? (type : Option TypeExpr) : Option TypeExpr :=
  (type.bind TypeExpr.erase?).filter (!·.isString)

/-- no place, no type where it says nothing, no mark -/
def erase : Param → Param
  | single _ name type _ _ => single .nowhere name (eraseType? type) false none
  | rest _ name type => rest .nowhere name (eraseType? type)

end Param

/-- no type parameters, and no result where it says nothing -/
def Signature.erase (s : Signature) : Signature :=
  ⟨[], s.params.map Param.erase, s.result.bind TypeExpr.erase?⟩

/-! ## Erasing in interfaces and classes -/

/-- of the members of an interface, the methods are left -/
def TypeMember.erase? : TypeMember → Option TypeMember
  | .method _ name signature _ => some (.method .nowhere name signature.erase false)
  | .property .. | .call .. | .construct .. | .index .. => none
  | .unknown => some .unknown

/-- no type parameters and no bases -/
def InterfaceDecl.erase (decl : InterfaceDecl) : InterfaceDecl where
  loc := .nowhere
  name := decl.name
  typeParams := []
  bases := []
  members := decl.members.filterMap TypeMember.erase?

namespace ClassMember

/-- of the members of a class, the constructors and methods are left -/
def erase? : ClassMember → Option ClassMember
  | .initializer _ params _ => some (.initializer .nowhere (params.map Param.erase) none)
  | .method _ name signature _ _ _ => some (.method .nowhere name signature.erase false false none)
  | .field .. | .index .. => none
  | .unknown => some .unknown

/-- behind some constructors: the first is left as it is, the second without parameters -/
def thin (seen : Nat) : List ClassMember → List ClassMember
  | [] => []
  | m :: rest =>
    match m with
    | .initializer loc params accessibility =>
      match seen with
      | 0 => .initializer loc params accessibility :: thin 1 rest
      | 1 => .initializer loc [] accessibility :: thin 2 rest
      | n + 2 => thin (n + 2) rest
    | .method .. | .field .. | .index .. | .unknown => m :: thin seen rest

def eraseAll (members : List ClassMember) : List ClassMember := thin 0 (members.filterMap erase?)

end ClassMember

/-! ## Erasing in declarations and files -/

/-- whether the export mark counts: classes are exported anyway, modules are not -/
def AmbientDecl.keepsExport : AmbientDecl → Bool
  | .classDecl .. | .moduleDecl .. => false
  | .variableDecl .. | .functionDecl .. | .interfaceDecl .. | .enumDecl .. | .unknown => true

def Element.keepsExport : Element → Bool
  | .bare decl => decl.keepsExport
  | .interfaceElement .. | .ambientElement .. | .link _ | .unknown => true

mutual

/-- nothing is left of variables, functions and enumerations -/
def AmbientDecl.erase? : AmbientDecl → Option AmbientDecl
  | .classDecl _ name _ _ _ members =>
    some (.classDecl .nowhere name [] none [] (ClassMember.eraseAll members))
  | .interfaceDecl _ decl => some (.interfaceDecl .nowhere decl.erase)
  | .moduleDecl _ path elements => some (.moduleDecl .nowhere path (ModuleElement.eraseAll elements))
  | .variableDecl .. | .functionDecl .. | .enumDecl .. => none
  | .unknown => some .unknown

/-- nothing is left of imports and exports either -/
def Element.erase? : Element → Option Element
  | .interfaceElement _ exported decl => some (.interfaceElement .nowhere exported decl.erase)
  | .ambientElement _ exported decl =>
    (AmbientDecl.erase? decl).map (.ambientElement .nowhere (exported && decl.keepsExport))
  | .bare decl => (AmbientDecl.erase? decl).map .bare
  | .link _ => none
  | .unknown => some .unknown

def ModuleElement.eraseAll : List ModuleElement → List ModuleElement
  | [] => []
  | .mk exported element :: rest =>
    ((Element.erase? element).map (.mk (exported && element.keepsExport))).toList ++
      ModuleElement.eraseAll rest

end

def SourceFile.erase (f : SourceFile) : SourceFile := ⟨f.elements.filterMap Element.erase?⟩

/-! ## Types and signatures -/

theorem TypeRef.ofTypes_toList (t : Option TypeExpr) :
    TypeRef.ofTypes t.toList = (t.bind TypeRef.ofType?).toList := by
  cases t with
  | none => rfl
  | some t => exact List.append_nil _

theorem TypeRef.ofTypes_append (ss ts : List TypeExpr) :
    TypeRef.ofTypes (ss ++ ts) = TypeRef.ofTypes ss ++ TypeRef.ofTypes ts := by
  induction ss with
  | nil => rfl
  | cons s rest ih =>
    rw [List.cons_append, TypeRef.ofTypes, TypeRef.ofTypes, ih, List.append_assoc]

mutual

/-- what is left of a type has its form in the model, and nothing is left only if it has none -/
theorem TypeRef.ofType?_erase : ∀ t : TypeExpr, t.erase?.bind TypeRef.ofType? = TypeRef.ofType? t
  | .predefined loc name => by
    rw [TypeExpr.erase?]
    split
    · rename_i void
      rw [void]
      rfl
    · rfl
  | .reference loc name args => by
    rw [TypeExpr.erase?, Option.bind_some, TypeRef.ofType?, TypeRef.ofType?,
      TypeRef.ofTypes_eraseAll args]
  | .array loc element => by
    have inner := TypeRef.ofType?_erase element
    rw [TypeExpr.erase?, Option.bind_some, TypeRef.ofType?, TypeRef.ofType?, TypeRef.arrayOf,
      TypeRef.ofTypes_toList, inner]
  | .object .. | .query .. | .function .. | .construct .. | .unknown => by
    rw [TypeExpr.erase?]
    rfl

theorem TypeRef.ofTypes_eraseAll :
    ∀ ts : List TypeExpr, TypeRef.ofTypes (TypeExpr.eraseAll ts) = TypeRef.ofTypes ts
  | [] => by rw [TypeExpr.eraseAll]
  | t :: rest => by
    have first := TypeRef.ofType?_erase t
    have others := TypeRef.ofTypes_eraseAll rest
    rw [TypeExpr.eraseAll, TypeRef.ofTypes_append, TypeRef.ofTypes_toList, first, others,
      TypeRef.ofTypes]

end

theorem TypeRef.ofOption?_erase (t : Option TypeExpr) :
    TypeRef.ofOption? (t.bind TypeExpr.erase?) = TypeRef.ofOption? t := by
  cases t with
  | none => rfl
  | some t => exact TypeRef.ofType?_erase t

/-- a string stands for a missing type -/
theorem TypeRef.ofType?_of_isString {t : TypeExpr} (h : t.isString = true) :
    TypeRef.ofType? t = some .string := by
  cases t with
  | predefined loc name =>
    have string : name = "string" := eq_of_beq h
    rw [string]
    rfl
  | reference | query | object | array | function | construct | unknown => cases h

namespace Param

theorem ofParam_eraseType? (t : Option TypeExpr) :
    TypeRef.ofParam (eraseType? t) = TypeRef.ofParam t := by
  unfold eraseType? TypeRef.ofParam
  rw [← TypeRef.ofOption?_erase t]
  cases t.bind TypeExpr.erase? with
  | none => rfl
  | some t =>
    cases h : t.isString with
    | false => rw [Option.filter_some_pos (by rw [h]; rfl)]
    | true =>
      rw [Option.filter_some_neg (by rw [h]; rfl)]
      show _ = (TypeRef.ofType? t).getD _
      rw [TypeRef.ofType?_of_isString h]
      rfl

theorem lower_erase (p : Param) : p.erase.lower = p.lower := by
  cases p with
  | single loc name type optional accessibility =>
    exact congrArg (Parameter.mk name) (ofParam_eraseType? type)
  | rest loc name type => exact congrArg (Parameter.mk name) (ofParam_eraseType? type)

theorem isRest_erase (p : Param) : p.erase.isRest = p.isRest := by cases p <;> rfl

theorem split_erase (params : List Param) :
    split (params.map erase) = ((split params).1.map erase, (split params).2.map erase) := by
  have rests : isRest ∘ erase = isRest := funext isRest_erase
  have others : (fun p => !isRest p) ∘ erase = fun p => !isRest p :=
    funext fun p => congrArg not (isRest_erase p)
  unfold split
  rw [List.filter_map, List.find?_map, rests, others]

end Param

namespace Method

theorem ofSignature_erase (name : Text) (params : List Param) (result : Option TypeExpr) :
    ofSignature name (params.map Param.erase) (result.bind TypeExpr.erase?) =
      ofSignature name params result := by
  have lowers : Param.lower ∘ Param.erase = Param.lower := funext Param.lower_erase
  unfold ofSignature
  rw [Param.split_erase, List.map_map, Option.map_map, lowers, TypeRef.ofOption?_erase]

/-! ## Interfaces and classes -/

theorem ofMember?_erase (m : TypeMember) : m.erase?.bind ofMember? = ofMember? m := by
  cases m with
  | method loc name signature optional =>
    exact congrArg some (ofSignature_erase name signature.params signature.result)
  | property | call | construct | index | unknown => rfl

theorem ofClassMember?_erase (m : ClassMember) : m.erase?.bind ofClassMember? = ofClassMember? m := by
  cases m with
  | method loc name signature optional static accessibility =>
    exact congrArg some (ofSignature_erase name signature.params signature.result)
  | initializer | field | index | unknown => rfl

theorem ofInitializer?_erase (m : ClassMember) : m.erase?.bind ofInitializer? = ofInitializer? m := by
  cases m with
  | initializer loc params accessibility =>
    exact congrArg some (ofSignature_erase "constructor" params none)
  | method | field | index | unknown => rfl

end Method

namespace ClassMember

theorem filterMap_thin (seen : Nat) (members : List ClassMember) :
    (thin seen members).filterMap Method.ofClassMember? =
      members.filterMap Method.ofClassMember? := by
  induction members generalizing seen with
  | nil => rfl
  | cons m rest ih =>
    cases m with
    | initializer loc params accessibility =>
      match seen with
      | 0 => exact ih 1
      | 1 => exact ih 2
      | n + 2 => exact ih (n + 2)
    | method loc name signature optional static accessibility =>
      rw [thin, List.filterMap_cons, List.filterMap_cons, ih seen]
    | field | index | unknown => exact ih seen

/-- as many constructors are left as two have room for -/
theorem length_initializers_thin (seen : Nat) (members : List ClassMember) :
    (initializers (thin seen members)).length = min (initializers members).length (2 - seen) := by
  induction members generalizing seen with
  | nil => exact (Nat.zero_min _).symm
  | cons m rest ih =>
    cases m with
    | initializer loc params accessibility =>
      match seen with
      | 0 =>
        show (initializers (thin 1 rest)).length + 1 = min ((initializers rest).length + 1) 2
        rw [ih]
        omega
      | 1 =>
        show (initializers (thin 2 rest)).length + 1 = min ((initializers rest).length + 1) 1
        rw [ih]
        omega
      | n + 2 =>
        show (initializers (thin (n + 2) rest)).length = min ((initializers rest).length + 1) _
        rw [ih]
        omega
    | method | field | index | unknown => exact ih seen

/-- the first constructor is left as it is -/
theorem head?_initializers_thin (members : List ClassMember) :
    (initializers (thin 0 members)).head? = (initializers members).head? := by
  induction members with
  | nil => rfl
  | cons m rest ih =>
    cases m with
    | initializer loc params accessibility => rfl
    | method | field | index | unknown => exact ih

end ClassMember

namespace Class

theorem ofInterface_erase (decl : InterfaceDecl) (exported : Bool) :
    ofInterface decl.erase exported = ofInterface decl exported := by
  have same : ∀ m : TypeMember, m.erase?.bind Method.ofMember? = Method.ofMember? m :=
    Method.ofMember?_erase
  unfold ofInterface InterfaceDecl.erase
  rw [List.filterMap_filterMap, funext same]

theorem ofClass_eraseAll (name : Text) (members : List ClassMember) :
    ofClass name (ClassMember.eraseAll members) = ofClass name members := by
  unfold ofClass ClassMember.eraseAll
  rw [ClassMember.filterMap_thin, List.filterMap_filterMap, funext Method.ofClassMember?_erase,
    Declared.filterMap_initializers, List.head?_map, ClassMember.head?_initializers_thin,
    ← List.head?_map, ← Declared.filterMap_initializers, List.filterMap_filterMap,
    funext Method.ofInitializer?_erase]

theorem warnings_eraseAll (members : List ClassMember) :
    warnings (ClassMember.eraseAll members) = warnings members := by
  have same : ∀ ms : List ClassMember,
      (ms.filterMap Method.ofInitializer?).length = (ClassMember.initializers ms).length := by
    intro ms
    rw [Declared.filterMap_initializers, List.length_map]
  have kept : (ClassMember.initializers (members.filterMap ClassMember.erase?)).length =
      (ClassMember.initializers members).length := by
    rw [← same, ← same, List.filterMap_filterMap, funext Method.ofInitializer?_erase]
  have two : (ClassMember.initializers (ClassMember.eraseAll members)).length =
      min (ClassMember.initializers members).length 2 := by
    rw [← kept]
    exact ClassMember.length_initializers_thin 0 _
  unfold warnings
  rw [same, same, two]
  congr 1
  exact propext (by omega)

end Class

/-! ## Declarations -/

theorem ModuleElement.lowerAll_append (a b : List ModuleElement) :
    lowerAll (a ++ b) = lowerAll a ++ lowerAll b := by
  induction a with
  | nil => rfl
  | cons e rest ih =>
    obtain ⟨exported, element⟩ := e
    cases element with
    | bare decl => rw [List.cons_append, lowerAll, lowerAll, ih, Lowered.append_assoc]
    | interfaceElement | ambientElement | link | unknown =>
      rw [List.cons_append, lowerAll, lowerAll, ih]

/-- nothing is left of an element of a module that is no bare declaration, or it does not count -/
theorem ModuleElement.lowerAll_toList (exported : Bool) (d : Option AmbientDecl) :
    lowerAll ((d.map Element.bare).map (ModuleElement.mk exported)).toList =
      (d.bind (AmbientDecl.lower? exported)).getD {} := by
  cases d with
  | none => rfl
  | some d => exact Lowered.append_empty _

mutual

theorem AmbientDecl.lower?_erase (exported : Bool) :
    ∀ d : AmbientDecl,
      (d.erase?.bind (AmbientDecl.lower? (exported && d.keepsExport))).getD {} =
        (d.lower? exported).getD {}
  | .classDecl loc name typeParams base implements members => by
    rw [AmbientDecl.erase?, Option.bind_some, AmbientDecl.lower?, AmbientDecl.lower?,
      Class.warnings_eraseAll, Class.ofClass_eraseAll]
  | .interfaceDecl loc decl => by
    rw [AmbientDecl.erase?, Option.bind_some, AmbientDecl.lower?, AmbientDecl.lower?,
      Class.ofInterface_erase, AmbientDecl.keepsExport, Bool.and_true]
  | .moduleDecl loc path elements => by
    rw [AmbientDecl.erase?, Option.bind_some, AmbientDecl.lower?, AmbientDecl.lower?,
      ModuleElement.lowerAll_eraseAll elements]
  | .variableDecl .. | .functionDecl .. | .enumDecl .. | .unknown => by
    rw [AmbientDecl.erase?, AmbientDecl.lower?]
    rfl

theorem ModuleElement.lowerAll_eraseAll :
    ∀ elements : List ModuleElement,
      ModuleElement.lowerAll (ModuleElement.eraseAll elements) = ModuleElement.lowerAll elements
  | [] => by rw [ModuleElement.eraseAll]
  | .mk exported (.bare decl) :: rest => by
    have first := AmbientDecl.lower?_erase exported decl
    have others := ModuleElement.lowerAll_eraseAll rest
    rw [ModuleElement.eraseAll, ModuleElement.lowerAll_append, others, Element.erase?,
      ModuleElement.lowerAll_toList, ModuleElement.lowerAll, Element.keepsExport, first]
  | .mk _ (.ambientElement _ _ decl) :: rest => by
    have others := ModuleElement.lowerAll_eraseAll rest
    rw [ModuleElement.eraseAll, ModuleElement.lowerAll_append, others, Element.erase?,
      ModuleElement.lowerAll]
    cases decl.erase? <;> rfl
  | .mk _ (.interfaceElement ..) :: rest | .mk _ (.link _) :: rest | .mk _ .unknown :: rest => by
    have others := ModuleElement.lowerAll_eraseAll rest
    rw [ModuleElement.eraseAll, ModuleElement.lowerAll_append, others, Element.erase?,
      ModuleElement.lowerAll]
    rfl

end

/-- an element of which nothing is left has no warnings and no classes -/
theorem Element.lower_erase (e : Element) : (e.erase?.map Element.lower).getD {} = e.lower := by
  cases e with
  | interfaceElement loc exported decl =>
    exact congrArg (fun c => Lowered.mk [] [c]) (Class.ofInterface_erase decl exported)
  | ambientElement loc exported decl =>
    have same := AmbientDecl.lower?_erase exported decl
    rw [Element.erase?, Option.map_map, Element.lower, ← same]
    cases decl.erase? <;> rfl
  | bare decl =>
    rw [Element.erase?, Option.map_map]
    cases decl.erase? <;> rfl
  | link | unknown => rfl

/-! ## Main results -/

namespace SourceFile

/-- erasing leaves the warnings and classes of a file as they are -/
theorem lower_erase (f : SourceFile) : f.erase.lower = f.lower := by
  unfold lower erase
  induction f.elements with
  | nil => rfl
  | cons e rest ih =>
    rw [List.map_cons, Lowered.concat_cons, ← ih, ← e.lower_erase]
    cases h : e.erase? with
    | none =>
      rw [List.filterMap_cons_none h]
      rfl
    | some left =>
      rw [List.filterMap_cons_some h]
      rfl

/-- **The warnings and classes of a file depend only on what erasing leaves of it.** -/
theorem lower_congr {f g : SourceFile} (same : f.erase = g.erase) : f.lower = g.lower := by
  rw [← lower_erase f, same, lower_erase g]

/-- a class with marks, an array and types that say nothing, and the same class without them behind
a variable -/
theorem lower_congr_class :
    (SourceFile.mk [.ambientElement ⟨1, 1⟩ true (.classDecl ⟨1, 9⟩ "A" [.mk "T" none] none []
        [.method ⟨1, 16⟩ "m" ⟨[], [
          .single ⟨1, 18⟩ "x" (some (.predefined ⟨1, 21⟩ "string")) true none,
          .rest ⟨1, 29⟩ "y" (some (.array ⟨1, 35⟩ (.predefined ⟨1, 35⟩ "number")))],
          some (.predefined ⟨1, 47⟩ "void")⟩ false true none])]).lower =
      (SourceFile.mk [.ambientElement ⟨1, 1⟩ false (.variableDecl ⟨1, 9⟩ "v" none),
        .ambientElement ⟨2, 1⟩ false (.classDecl ⟨2, 9⟩ "A" [] none []
          [.method ⟨2, 19⟩ "m" ⟨[], [
            .single ⟨2, 21⟩ "x" none false none,
            .rest ⟨2, 24⟩ "y" (some (.reference ⟨2, 30⟩ "Array" [.predefined ⟨2, 36⟩ "number"]))],
            none⟩ false false none])]).lower :=
  lower_congr rfl

end SourceFile

end Typings
