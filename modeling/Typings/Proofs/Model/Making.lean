import Typings.Model.OfDeclaration
/-!
# Classes that are made

A class may be made of its parts with the check that they go together, when it is lowered and again when it is put
into a module.  No such check fails, so what is made is what the declarations are lowered to.

* `Class.ofInterface?`, `Class.ofClass?`      the class of a declaration, made with the check;
* `Class.within?`, `Lowered.within?`          with one more module around, each class made again;
* `AmbientDecl.make?`, `SourceFile.make?`     declarations and files;
* `SourceFile.make?_eq`                       the main result.
-/

namespace Typings

/-! ## Classes -/

namespace Class

def ofInterface? (decl : InterfaceDecl) (exported : Bool) : Except Fault Class :=
  make? decl.name none exported true none (decl.members.filterMap Method.ofMember?)

def ofClass? (name : Text) (members : List ClassMember) : Except Fault Class :=
  make? name none true false (members.filterMap Method.ofInitializer?).head?
    (members.filterMap Method.ofClassMember?)

/-- the class made again of its parts, but for its module -/
def remake? (moduleName : Option Text) (c : Class) : Except Fault Class :=
  make? c.name moduleName c.exported (c.kind == .interface) c.kind.initializer? c.methods

def within? (module : Option Text) (c : Class) : Except Fault Class :=
  c.remake? (modulePath? ([module, c.moduleName].filterMap fun s => s.filter fun t => !t.isEmpty))

/-- an interface has no constructor that the check could refuse -/
theorem remake?_eq (moduleName : Option Text) (c : Class) : c.remake? moduleName = .ok { c with moduleName } := by
  obtain ⟨name, _, exported, kind, methods⟩ := c
  cases kind <;> rfl

theorem within?_eq (module : Option Text) : within? module = fun c => .ok (c.within module) :=
  funext fun c => remake?_eq _ c

end Class

namespace Lowered

/-- all classes with one more module around each -/
def within? (module : Option Text) (inner : Lowered) : Except Class.Fault Lowered := do
  let classes ← inner.classes.mapM (Class.within? module)
  return ⟨inner.warnings, classes⟩

theorem within?_eq (module : Option Text) (inner : Lowered) :
    inner.within? module = .ok ⟨inner.warnings, inner.classes.map (Class.within module)⟩ := by
  have classes : inner.classes.mapM (Class.within? module) = .ok (inner.classes.map (Class.within module)) := by
    rw [Class.within?_eq]
    exact List.mapM_pure
  rw [within?, classes]
  rfl

end Lowered

/-! ## Declarations -/

mutual

/-- the warnings and classes of a declaration, each class made with the check; none for a kind without classes -/
def AmbientDecl.make? (exported : Bool) : AmbientDecl → Except Class.Fault (Option Lowered)
  | .classDecl _ name _ _ _ members => do
    let c ← Class.ofClass? name members
    return some ⟨Class.warnings members, [c]⟩
  | .interfaceDecl _ decl => do
    let c ← Class.ofInterface? decl exported
    return some ⟨[], [c]⟩
  | .moduleDecl _ path elements => do
    let inner ← ModuleElement.makeAll? elements
    let whole ← inner.within? (Class.modulePath? path)
    return some whole
  | .variableDecl .. | .functionDecl .. | .enumDecl .. | .unknown => return none

/-- the warnings and classes of the elements of a module -/
def ModuleElement.makeAll? : List ModuleElement → Except Class.Fault Lowered
  | [] => return {}
  | .mk exported element :: rest =>
    match element with
    | .bare decl => do
      let here ← AmbientDecl.make? exported decl
      let further ← ModuleElement.makeAll? rest
      return here.getD {} ++ further
    | .interfaceElement .. | .ambientElement .. | .link _ | .unknown => ModuleElement.makeAll? rest

end

def Element.make? : Element → Except Class.Fault Lowered
  | .interfaceElement _ exported decl => do
    let c ← Class.ofInterface? decl exported
    return ⟨[], [c]⟩
  | .ambientElement _ exported decl => do
    let here ← AmbientDecl.make? exported decl
    return here.getD {}
  | .bare _ | .link _ | .unknown => return {}

/-- the warnings and classes of a file, each class made with the check -/
def SourceFile.make? (f : SourceFile) : Except Class.Fault Lowered := do
  let parts ← f.elements.mapM Element.make?
  return Lowered.concat parts

/-! ## No check fails -/

mutual

theorem AmbientDecl.make?_eq (exported : Bool) :
    ∀ decl : AmbientDecl, AmbientDecl.make? exported decl = .ok (AmbientDecl.lower? exported decl)
  | .classDecl .. => rfl
  | .interfaceDecl .. => rfl
  | .moduleDecl _ path elements => by
    rw [AmbientDecl.make?, ModuleElement.makeAll?_eq elements]
    show ((ModuleElement.lowerAll elements).within? (Class.modulePath? path) >>= fun whole => .ok (some whole)) = _
    rw [Lowered.within?_eq]
    rfl
  | .variableDecl .. => rfl
  | .functionDecl .. => rfl
  | .enumDecl .. => rfl
  | .unknown => rfl

theorem ModuleElement.makeAll?_eq :
    ∀ elements : List ModuleElement, ModuleElement.makeAll? elements = .ok (ModuleElement.lowerAll elements)
  | [] => rfl
  | .mk exported element :: rest => by
    have further := ModuleElement.makeAll?_eq rest
    cases element with
    | bare decl =>
      rw [ModuleElement.makeAll?, AmbientDecl.make?_eq exported decl, further]
      rfl
    | interfaceElement | ambientElement | link | unknown => exact further

end

theorem Element.make?_eq : make? = fun e => .ok e.lower := by
  funext e
  cases e with
  | ambientElement loc exported decl =>
    rw [Element.make?, AmbientDecl.make?_eq]
    rfl
  | interfaceElement | bare | link | unknown => rfl

/-- the classes of a file are made without a fault, and are those that it is lowered to -/
theorem SourceFile.make?_eq (f : SourceFile) : f.make? = .ok f.lower := by
  have parts : f.elements.mapM Element.make? = .ok (f.elements.map Element.lower) := by
    rw [Element.make?_eq]
    exact List.mapM_pure
  rw [SourceFile.make?, parts]
  rfl

end Typings
