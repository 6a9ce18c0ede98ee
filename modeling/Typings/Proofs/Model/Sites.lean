import Typings.Proofs.Model.ModulePath
/-!
# The interfaces and classes of a file

A file is read from its outside to its inside: its sites are the interfaces and classes in it, each
with the modules around it.  The classes of the model are made from the inside to the outside.  Both
give the same list.

* `Site`, `SourceFile.sites`             the interfaces and classes of a file in their order;
* `Site.moduleName`                      the name of the modules around a site;
* `SourceFile.classes_eq`                the classes of a file are those of its sites;
* `SourceFile.warnings_eq`               so are the warnings.
-/

namespace Typings

/-! ## Warnings and classes side by side -/

namespace Lowered

theorem append_empty (a : Lowered) : a ++ {} = a := by
  show (⟨a.warnings ++ [], a.classes ++ []⟩ : Lowered) = a
  rw [List.append_nil, List.append_nil]

theorem append_assoc (a b c : Lowered) : a ++ b ++ c = a ++ (b ++ c) := by
  show (⟨a.warnings ++ b.warnings ++ c.warnings, a.classes ++ b.classes ++ c.classes⟩ : Lowered) =
    ⟨a.warnings ++ (b.warnings ++ c.warnings), a.classes ++ (b.classes ++ c.classes)⟩
  rw [List.append_assoc, List.append_assoc]

theorem concat_cons (x : Lowered) (xs : List Lowered) : concat (x :: xs) = x ++ concat xs := rfl

theorem concat_append (xs ys : List Lowered) : concat (xs ++ ys) = concat xs ++ concat ys := by
  show (⟨(xs ++ ys).flatMap (·.warnings), (xs ++ ys).flatMap (·.classes)⟩ : Lowered) = _
  rw [List.flatMap_append, List.flatMap_append]
  rfl

end Lowered

/-! ## Sites -/

/-- a declaration that has a class in the model -/
inductive Declared where
  | classDecl (name : Text) (members : List ClassMember)
  | interfaceDecl (exported : Bool) (decl : InterfaceDecl)

/-- a declaration, and the paths of the modules around it from the outermost to the innermost -/
structure Site where
  modules : List (List Text)
  decl : Declared

mutual

/-- the interfaces and classes of a declaration inside some modules -/
def AmbientDecl.sites (modules : List (List Text)) (exported : Bool) : AmbientDecl → List Site
  | .classDecl _ name _ _ _ members => [⟨modules, .classDecl name members⟩]
  | .interfaceDecl _ decl => [⟨modules, .interfaceDecl exported decl⟩]
  | .moduleDecl _ path elements => ModuleElement.sites (modules ++ [path]) elements
  | .variableDecl .. | .functionDecl .. | .enumDecl .. | .unknown => []

/-- those of the elements of a module -/
def ModuleElement.sites (modules : List (List Text)) : List ModuleElement → List Site
  | [] => []
  | .mk exported element :: rest =>
    match element with
    | .bare decl => decl.sites modules exported ++ ModuleElement.sites modules rest
    | .interfaceElement .. | .ambientElement .. | .link _ | .unknown =>
      ModuleElement.sites modules rest

end

def Element.sites : Element → List Site
  | .interfaceElement _ exported decl => [⟨[], .interfaceDecl exported decl⟩]
  | .ambientElement _ exported decl => decl.sites [] exported
  | .bare _ | .link _ | .unknown => []

/-- the interfaces and classes of a file in the order of the text -/
def SourceFile.sites (f : SourceFile) : List Site := f.elements.flatMap Element.sites

/-! ## The class of a site -/

/-- the parameters of the constructors of a class -/
def ClassMember.initializers : List ClassMember → List (List Param)
  | [] => []
  | .initializer _ params _ :: rest => params :: initializers rest
  | _ :: rest => initializers rest

namespace Declared

/-- a class declaration with more than one constructor -/
def isOverloaded : Declared → Bool
  | classDecl _ members => decide (1 < (ClassMember.initializers members).length)
  | interfaceDecl .. => false

/-- the class of a declaration outside of all modules -/
def toClass : Declared → Class
  | classDecl name members => Class.ofClass name members
  | interfaceDecl exported decl => Class.ofInterface decl exported

theorem filterMap_initializers (members : List ClassMember) :
    members.filterMap Method.ofInitializer? = (ClassMember.initializers members).map fun params =>
      Method.ofSignature "constructor" params none := by
  induction members with
  | nil => rfl
  | cons m rest ih =>
    cases m with
    | initializer loc params accessibility => exact congrArg _ ih
    | method | field | index | unknown => exact ih

end Declared

namespace Site

/-- the names of the modules around a site, without those that are empty -/
def names (s : Site) : List Text := (s.modules.map (Text.join ".")).filter fun t => !t.isEmpty

/-- the name that they make together; none if there are no names -/
def moduleName (s : Site) : Option Text :=
  if s.names = [] then none else some (Text.join "." s.names)

/-- the site with one more module around it -/
def under (path : List Text) (s : Site) : Site := { s with modules := path :: s.modules }

/-- the class of a site -/
def toClass (s : Site) : Class := { s.decl.toClass with moduleName := s.moduleName }

theorem names_ne_nil {s : Site} {t : Text} (h : t ∈ s.names) : t ≠ [] := by
  rintro rfl
  have full := (List.mem_filter.mp h).2
  cases full

theorem names_under (path : List Text) (s : Site) :
    (s.under path).names =
      if Text.join "." path = [] then s.names else Text.join "." path :: s.names := by
  show List.filter _ (Text.join "." path :: s.modules.map (Text.join ".")) = _
  by_cases h : Text.join "." path = []
  · rw [if_pos h, h]
    rfl
  · rw [if_neg h, List.filter_cons_of_pos]
    · rfl
    · rw [List.isEmpty_eq_false_iff.mpr h]
      rfl

theorem segment_moduleName (s : Site) :
    Class.segment s.moduleName = if s.names = [] then [] else [Text.join "." s.names] := by
  unfold moduleName
  by_cases h : s.names = []
  · rw [if_pos h, if_pos h]
    rfl
  · have full := Text.join_ne_nil "." h fun t => names_ne_nil
    rw [if_neg h, if_neg h, Class.segment_some, if_neg full]

/-- one more module puts its name in front -/
theorem moduleName_under (path : List Text) (s : Site) :
    Class.modulePath? (Class.segment (Class.modulePath? path) ++ Class.segment s.moduleName) =
      (s.under path).moduleName := by
  rw [Class.segment_modulePath?, segment_moduleName, moduleName, names_under, Class.modulePath?_eq]
  by_cases hq : Text.join "." path = []
  · rw [if_pos hq, if_pos hq, List.nil_append]
    by_cases hs : s.names = []
    · rw [if_pos hs, if_pos rfl, if_pos hs]
    · rw [if_neg hs, if_neg (List.cons_ne_nil _ _), if_neg hs, Text.join_singleton]
  · rw [if_neg hq, if_neg hq, if_neg (List.cons_ne_nil _ _)]
    by_cases hs : s.names = []
    · rw [if_pos hs, hs, List.append_nil, if_neg (List.cons_ne_nil _ _)]
    · rw [if_neg hs, List.singleton_append, if_neg (List.cons_ne_nil _ _),
        Text.join_cons _ _ (List.cons_ne_nil _ _), Text.join_singleton, Text.join_cons _ _ hs]

theorem within_toClass (path : List Text) (s : Site) :
    s.toClass.within (Class.modulePath? path) = (s.under path).toClass := by
  rw [Class.within_eq]
  exact congrArg (fun m => ({ s.decl.toClass with moduleName := m } : Class))
    (s.moduleName_under path)

end Site

/-! ## From the inside and from the outside -/

mutual

/-- a module around the modules goes in front of every path -/
theorem AmbientDecl.sites_cons (path : List Text) (modules : List (List Text)) (exported : Bool) :
    ∀ d : AmbientDecl,
      d.sites (path :: modules) exported = (d.sites modules exported).map (Site.under path)
  | .classDecl .. | .interfaceDecl .. | .variableDecl .. | .functionDecl .. | .enumDecl ..
  | .unknown => by
    rw [AmbientDecl.sites, AmbientDecl.sites]
    rfl
  | .moduleDecl _ inner elements => by
    rw [AmbientDecl.sites, AmbientDecl.sites]
    exact ModuleElement.sites_cons path (modules ++ [inner]) elements

theorem ModuleElement.sites_cons (path : List Text) (modules : List (List Text)) :
    ∀ elements : List ModuleElement,
      ModuleElement.sites (path :: modules) elements =
        (ModuleElement.sites modules elements).map (Site.under path)
  | [] => by
    rw [ModuleElement.sites, ModuleElement.sites]
    rfl
  | .mk exported (.bare decl) :: rest => by
    rw [ModuleElement.sites, ModuleElement.sites, List.map_append,
      AmbientDecl.sites_cons path modules exported decl, ModuleElement.sites_cons path modules rest]
  | .mk _ (.interfaceElement ..) :: rest | .mk _ (.ambientElement ..) :: rest
  | .mk _ (.link _) :: rest | .mk _ .unknown :: rest => by
    rw [ModuleElement.sites, ModuleElement.sites]
    exact ModuleElement.sites_cons path modules rest

end

mutual

/-- the classes of a declaration are those of its sites -/
theorem AmbientDecl.classes_eq (exported : Bool) :
    ∀ d : AmbientDecl,
      ((d.lower? exported).getD {}).classes = (d.sites [] exported).map Site.toClass
  | .classDecl .. | .interfaceDecl .. | .variableDecl .. | .functionDecl .. | .enumDecl ..
  | .unknown => by
    rw [AmbientDecl.lower?, AmbientDecl.sites]
    rfl
  | .moduleDecl _ path elements => by
    have inner := ModuleElement.classes_eq elements
    rw [AmbientDecl.lower?, AmbientDecl.sites, List.nil_append, ModuleElement.sites_cons]
    show List.map _ (ModuleElement.lowerAll elements).classes = _
    rw [inner, List.map_map, List.map_map]
    congr 1
    funext s
    exact s.within_toClass path

theorem ModuleElement.classes_eq :
    ∀ elements : List ModuleElement,
      (ModuleElement.lowerAll elements).classes =
        (ModuleElement.sites [] elements).map Site.toClass
  | [] => by
    rw [ModuleElement.lowerAll, ModuleElement.sites]
    rfl
  | .mk exported (.bare decl) :: rest => by
    have first := AmbientDecl.classes_eq exported decl
    have others := ModuleElement.classes_eq rest
    rw [ModuleElement.lowerAll, ModuleElement.sites, List.map_append, ← first, ← others]
    rfl
  | .mk _ (.interfaceElement ..) :: rest | .mk _ (.ambientElement ..) :: rest
  | .mk _ (.link _) :: rest | .mk _ .unknown :: rest => by
    rw [ModuleElement.lowerAll, ModuleElement.sites]
    exact ModuleElement.classes_eq rest

end

/-- the warnings about the class declarations among some sites -/
def Site.warnings (sites : List Site) : List Warning :=
  (sites.filter fun s => s.decl.isOverloaded).map fun _ => .tooManyConstructors

theorem Site.warnings_append (a b : List Site) : warnings (a ++ b) = warnings a ++ warnings b := by
  unfold warnings
  rw [List.filter_append, List.map_append]

theorem Site.warnings_classDecl (modules : List (List Text)) (name : Text)
    (members : List ClassMember) :
    warnings [⟨modules, .classDecl name members⟩] = Class.warnings members := by
  unfold warnings Class.warnings
  rw [Declared.filterMap_initializers, List.length_map]
  by_cases h : 1 < (ClassMember.initializers members).length
  · have overloaded : (Declared.classDecl name members).isOverloaded = true := decide_eq_true h
    rw [if_pos h]
    simp only [List.filter, overloaded, List.map]
  · have single : (Declared.classDecl name members).isOverloaded = false := decide_eq_false h
    rw [if_neg h]
    simp only [List.filter, single, List.map]

mutual

/-- the warnings of a declaration are those of its sites -/
theorem AmbientDecl.warnings_eq (modules : List (List Text)) (exported : Bool) :
    ∀ d : AmbientDecl,
      ((d.lower? exported).getD {}).warnings = Site.warnings (d.sites modules exported)
  | .classDecl _ name _ _ _ members => by
    rw [AmbientDecl.lower?, AmbientDecl.sites, Site.warnings_classDecl]
    rfl
  | .interfaceDecl .. | .variableDecl .. | .functionDecl .. | .enumDecl .. | .unknown => by
    rw [AmbientDecl.lower?, AmbientDecl.sites]
    rfl
  | .moduleDecl _ path elements => by
    rw [AmbientDecl.lower?, AmbientDecl.sites]
    exact ModuleElement.warnings_eq (modules ++ [path]) elements

theorem ModuleElement.warnings_eq (modules : List (List Text)) :
    ∀ elements : List ModuleElement,
      (ModuleElement.lowerAll elements).warnings =
        Site.warnings (ModuleElement.sites modules elements)
  | [] => by
    rw [ModuleElement.lowerAll, ModuleElement.sites]
    rfl
  | .mk exported (.bare decl) :: rest => by
    have first := AmbientDecl.warnings_eq modules exported decl
    have others := ModuleElement.warnings_eq modules rest
    rw [ModuleElement.lowerAll, ModuleElement.sites, Site.warnings_append, ← first, ← others]
    rfl
  | .mk _ (.interfaceElement ..) :: rest | .mk _ (.ambientElement ..) :: rest
  | .mk _ (.link _) :: rest | .mk _ .unknown :: rest => by
    rw [ModuleElement.lowerAll, ModuleElement.sites]
    exact ModuleElement.warnings_eq modules rest

end

namespace SourceFile

theorem classes_eq (f : SourceFile) : f.lower.classes = f.sites.map Site.toClass := by
  have one : ∀ e : Element, e.lower.classes = e.sites.map Site.toClass := by
    intro e
    cases e with
    | ambientElement loc exported decl => exact AmbientDecl.classes_eq exported decl
    | interfaceElement | bare | link | unknown => rfl
  show (f.elements.map Element.lower).flatMap (·.classes) = _
  rw [List.flatMap_map, sites, List.map_flatMap]
  congr 1
  funext e
  exact one e

theorem warnings_eq (f : SourceFile) : f.lower.warnings = Site.warnings f.sites := by
  have one : ∀ e : Element, e.lower.warnings = Site.warnings e.sites := by
    intro e
    cases e with
    | ambientElement loc exported decl => exact AmbientDecl.warnings_eq [] exported decl
    | interfaceElement | bare | link | unknown => rfl
  show (f.elements.map Element.lower).flatMap (·.warnings) = _
  unfold sites
  induction f.elements with
  | nil => rfl
  | cons e rest ih =>
    rw [List.map_cons, List.flatMap_cons, List.flatMap_cons, Site.warnings_append, one, ih]

end SourceFile

end Typings
