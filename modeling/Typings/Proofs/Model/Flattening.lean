import Mathlib.Data.List.Forall2
import Typings.Proofs.Model.Sites
/-!
# Nothing is lost when a file is flattened

Each interface and each class of a file has one class in the model, with the modules around it.

* `Declared.Models`                      a class says what its declaration says;
* `SourceFile.lower_flattens`            nothing is lost, doubled or moved;
* `SourceFile.lower_moduleNames`         the names of modules are complete, however they are split.
-/

namespace Typings

/-! ## What a class says about its declaration -/

/-- the names and signatures of the methods of a class -/
def ClassMember.functions : List ClassMember → List (Text × Signature)
  | [] => []
  | .method _ name signature _ _ _ :: rest => (name, signature) :: functions rest
  | _ :: rest => functions rest

/-- the names and signatures of the methods of an interface -/
def TypeMember.functions : List TypeMember → List (Text × Signature)
  | [] => []
  | .method _ name signature _ :: rest => (name, signature) :: functions rest
  | _ :: rest => functions rest

/-- the method of a name and a signature -/
def Method.ofFunction (f : Text × Signature) : Method :=
  Method.ofSignature f.1 f.2.params f.2.result

namespace Declared

/-- the class says what the declaration says: a class is exported and has the first of its
constructors, an interface has the export mark of its own element and no constructor -/
def Models : Declared → Class → Prop
  | classDecl name members, c =>
    c.name = name ∧ c.exported = true ∧
      c.kind = .withConstructor ((ClassMember.initializers members).head?.map fun params =>
        Method.ofSignature "constructor" params none) ∧
      c.methods = (ClassMember.functions members).map Method.ofFunction
  | interfaceDecl exported decl, c =>
    c.name = decl.name ∧ c.exported = exported ∧ c.kind = .interface ∧
      c.methods = (TypeMember.functions decl.members).map Method.ofFunction

theorem filterMap_functions (members : List ClassMember) :
    members.filterMap Method.ofClassMember? =
      (ClassMember.functions members).map Method.ofFunction := by
  induction members with
  | nil => rfl
  | cons m rest ih =>
    cases m with
    | method loc name signature optional static accessibility => exact congrArg _ ih
    | initializer | field | index | unknown => exact ih

theorem filterMap_members (members : List TypeMember) :
    members.filterMap Method.ofMember? = (TypeMember.functions members).map Method.ofFunction := by
  induction members with
  | nil => rfl
  | cons m rest ih =>
    cases m with
    | method loc name signature optional => exact congrArg _ ih
    | property | call | construct | index | unknown => exact ih

theorem models_toClass (d : Declared) (moduleName : Option Text) :
    d.Models { d.toClass with moduleName } := by
  cases d with
  | classDecl name members =>
    refine ⟨rfl, rfl, ?_, filterMap_functions members⟩
    show ClassKind.withConstructor (members.filterMap Method.ofInitializer?).head? = _
    rw [filterMap_initializers, List.head?_map]
  | interfaceDecl exported decl => exact ⟨rfl, rfl, rfl, filterMap_members decl.members⟩

end Declared

/-! ## Main results -/

namespace SourceFile

/-- **The classes are the interfaces and classes of the file, one for each and in their order, and
there is one warning for each class with more than one constructor.** -/
theorem lower_flattens (f : SourceFile) :
    List.Forall₂ (fun s c => s.decl.Models c) f.sites f.lower.classes ∧
      f.lower.warnings.map Warning.message =
        List.replicate (f.sites.countP fun s => s.decl.isOverloaded) "Too many constructors" := by
  constructor
  · rw [classes_eq, List.forall₂_map_right_iff, List.forall₂_same]
    intro s _
    exact s.decl.models_toClass s.moduleName
  · rw [warnings_eq, Site.warnings, List.map_map, List.countP_eq_length_filter]
    exact List.map_const' ..

/-- **The name of the module of a class is made of the names of all modules around it that are not
empty, and a module with a longer path is the same as a module in a module.** -/
theorem lower_moduleNames :
    (∀ f : SourceFile,
      List.Forall₂ (fun s c => c.moduleName = s.moduleName) f.sites f.lower.classes) ∧
    ∀ p q : List Text, p ≠ [] → q ≠ [] → (∀ t ∈ p ++ q, t ≠ []) →
      ∀ (exported inner : Bool) (loc loc' loc'' : Loc) (elements : List ModuleElement),
        AmbientDecl.lower? exported (.moduleDecl loc (p ++ q) elements) =
          AmbientDecl.lower? exported
            (.moduleDecl loc' p [.mk inner (.bare (.moduleDecl loc'' q elements))]) := by
  constructor
  · intro f
    rw [classes_eq, List.forall₂_map_right_iff, List.forall₂_same]
    intro s _
    rfl
  · intro p q hp hq full exported inner loc loc' loc'' elements
    have fullp := Text.join_ne_nil "." hp fun t mem => full t (List.mem_append_left q mem)
    have fullq := Text.join_ne_nil "." hq fun t mem => full t (List.mem_append_right p mem)
    have same : ∀ cs : List Class, cs.map (Class.within (Class.modulePath? (p ++ q))) =
        (cs.map (Class.within (Class.modulePath? q))).map (Class.within (Class.modulePath? p)) := by
      intro cs
      rw [List.map_map]
      congr 1
      funext c
      exact (Class.within_within fullp fullq c).symm
    rw [AmbientDecl.lower?, AmbientDecl.lower?, ModuleElement.lowerAll, ModuleElement.lowerAll,
      AmbientDecl.lower?, Option.getD_some, Lowered.append_empty, same]

/-- an interface in the module `B` of the module `A` -/
theorem lower_moduleNames_nested :
    AmbientDecl.lower? false (.moduleDecl ⟨1, 1⟩ (["A"] ++ ["B"])
        [.mk true (.bare (.interfaceDecl ⟨1, 20⟩ ⟨⟨1, 20⟩, "I", [], [], []⟩))]) =
      AmbientDecl.lower? false (.moduleDecl ⟨1, 1⟩ ["A"] [.mk false (.bare (.moduleDecl ⟨1, 12⟩ ["B"]
        [.mk true (.bare (.interfaceDecl ⟨1, 20⟩ ⟨⟨1, 20⟩, "I", [], [], []⟩))]))]) ∧
    (((AmbientDecl.lower? false (.moduleDecl ⟨1, 1⟩ (["A"] ++ ["B"])
        [.mk true (.bare (.interfaceDecl ⟨1, 20⟩ ⟨⟨1, 20⟩, "I", [], [], []⟩))])).getD {}).classes.map
      fun c => c.moduleName) = [some (Text.ofString "A.B")] :=
  ⟨lower_moduleNames.2 ["A"] ["B"] (by decide) (by decide) (by decide) false false _ _ _ _, by decide⟩

end SourceFile

end Typings
