import Typings.Proofs.Model.WellFormed
import Typings.Proofs.Report.Locations
import Typings.Proofs.Syntax.Wording
/-!
# The class model of what is read

The classes of a file that is read are well formed, since the names in its trees are.

* `Node.LowersWell`                  what a node becomes in the class model is well formed;
* `Node.lowersWell`                  this is so if it is so of the parts of the node;
* `Grown.lowersWell`                 and so of each node of a tree whose names are good;
* `SourceFile.lower_wellFormed`      the classes of a file.
-/

namespace Typings

/-! ## Parts -/

/-- what a node becomes in the class model is well formed -/
def Node.LowersWell : Node → Prop
  | type t => ∀ r ∈ TypeRef.ofType? t, r.WellFormed
  | param p => p.lower.WellFormed
  | member m => ∀ method ∈ Method.ofMember? m, method.WellFormed
  | interface decl => ∀ exported, (Class.ofInterface decl exported).WellFormed
  | classMember m => (∀ method ∈ Method.ofClassMember? m, method.WellFormed) ∧
      ∀ method ∈ Method.ofInitializer? m,
        method.name = "constructor" ∧ method.result = none ∧ method.WellFormed
  | ambient decl => ∀ exported, ∀ l ∈ AmbientDecl.lower? exported decl, ∀ c ∈ l.classes, c.WellFormed
  | element e => ∀ c ∈ e.lower.classes, c.WellFormed

/-- a row of nodes that become well formed -/
def Node.RowLowersWell (row : List Node) : Prop := ∀ n ∈ row, n.LowersWell

theorem TypeExpr.ofOption_wellFormed {t : Option TypeExpr} (h : Node.RowLowersWell (toNodes t)) :
    ∀ r ∈ TypeRef.ofOption? t, r.WellFormed := by
  cases t with
  | none => exact fun _ h => nomatch h
  | some t => exact h (.type t) List.mem_cons_self

/-- the method of a signature -/
theorem Signature.method_wellFormed {name : Text} {s : Signature} (h : ∀ row ∈ s.rows, Node.RowLowersWell row) :
    (Method.ofSignature name s.params s.result).WellFormed := by
  cases s with
  | mk typeParams params result =>
    obtain ⟨_, h⟩ := List.forall_mem_cons.mp h
    obtain ⟨heads, h⟩ := List.forall_mem_cons.mp h
    exact Method.ofSignature_wellFormed (fun p hp => heads (.param p) (List.mem_map_of_mem hp))
      (TypeExpr.ofOption_wellFormed (List.forall_mem_singleton.mp h))

theorem ModuleElement.lowerAll_wellFormed {elements : List ModuleElement}
    (h : Node.RowLowersWell (elements.map node)) : ∀ c ∈ (lowerAll elements).classes, c.WellFormed := by
  induction elements with
  | nil => exact fun _ h => absurd h List.not_mem_nil
  | cons e rest ih =>
    obtain ⟨here, further⟩ := List.forall_mem_cons.mp h
    obtain ⟨exported, element⟩ := e
    cases element with
    | bare decl =>
      rw [lowerAll]
      refine List.forall_mem_append.mpr ⟨?_, ih further⟩
      cases lowered : AmbientDecl.lower? exported decl with
      | none => exact fun _ h => absurd h List.not_mem_nil
      | some l => exact here exported l lowered
    | interfaceElement | ambientElement | link | unknown => exact ih further

/-! ## Nodes -/

/-- each name that a reference may not have is a word for a predefined type -/
theorem Terminal.exists_typeWord :
    ∀ name ∈ ("void" : Text) :: TypeRef.predefinedNames, ∃ u ∈ predefinedWords, u.isWord name = true := by
  decide

namespace Node
variable {label : Label} {loc : Loc} {children : List Tree}

/-- a reference that is no base, with its arguments -/
theorem reference_lowersWell {place : Loc} {name : Text} {args : List TypeExpr}
    (names : ∀ t ∈ children, t.WellNamed) (unreserved : (Tree.node label loc children).Unreserved)
    (spelled : (type (.reference place name args)).SpelledIn label children)
    (h : RowLowersWell (args.map type)) : (type (.reference place name args)).LowersWell := by
  obtain ⟨rfl, found, there, rfl⟩ := spelled
  obtain ⟨found', first, more, there', isNames, free⟩ := unreserved
  obtain rfl : found = found' := Option.some.inj (there.symm.trans there')
  rintro _ ⟨⟩
  have isName : ∀ n ∈ first :: more, n.isName = true := by
    cases names _ (Tree.mem_of_child? there) with
    | node inner _ => exact isNames ▸ Tree.names_isName inner
  have other : first ∉ ("void" : Text) :: TypeRef.predefinedNames := by
    intro mem
    obtain ⟨u, word, isWord⟩ := Terminal.exists_typeWord first mem
    exact Bool.false_ne_true ((free u word).symm.trans isWord)
  rw [Tree.dotted, isNames]
  exact TypeRef.wellFormed_of_names isName other
    (TypeRef.ofTypes_wellFormed fun t ht => h (type t) (List.mem_map_of_mem ht))

theorem type_lowersWell {t : TypeExpr} (names : ∀ t ∈ children, t.WellNamed)
    (unreserved : (Tree.node label loc children).Unreserved) (spelled : (type t).SpelledIn label children)
    (h : ∀ row ∈ (type t).parts, RowLowersWell row) : (type t).LowersWell := by
  cases t with
  | predefined _ name =>
    intro r known
    obtain ⟨front, behind, split, _⟩ := List.lookup_eq_some_iff.mp known
    refine TypeRef.predefined_wellFormed (name, r) ?_
    rw [split]
    exact List.mem_append_right front List.mem_cons_self
  | reference =>
    exact reference_lowersWell names unreserved spelled (List.forall_mem_singleton.mp h)
  | object =>
    rintro _ ⟨⟩
    exact TypeRef.plain_wellFormed (by decide) (by decide)
  | array _ element =>
    rintro _ ⟨⟩
    exact TypeRef.arrayOf_wellFormed (List.forall_mem_singleton.mp (List.forall_mem_singleton.mp h))
  | query | function | construct | unknown => exact fun _ h => nomatch h

theorem classMember_lowersWell {m : ClassMember} (h : ∀ row ∈ (classMember m).parts, RowLowersWell row) :
    (classMember m).LowersWell := by
  cases m with
  | initializer _ params =>
    refine ⟨(fun _ h => nomatch h), ?_⟩
    rintro _ ⟨⟩
    have params := List.forall_mem_singleton.mp h
    exact ⟨rfl, rfl, Method.ofSignature_wellFormed (fun p hp => params (param p) (List.mem_map_of_mem hp))
      fun _ h => nomatch h⟩
  | method =>
    refine ⟨?_, fun _ h => nomatch h⟩
    rintro _ ⟨⟩
    exact Signature.method_wellFormed h
  | field | index | unknown => exact ⟨(fun _ h => nomatch h), fun _ h => nomatch h⟩

theorem ambient_lowersWell {decl : AmbientDecl} (names : ∀ t ∈ children, t.WellNamed)
    (spelled : (ambient decl).SpelledIn label children) (h : ∀ row ∈ (ambient decl).parts, RowLowersWell row) :
    (ambient decl).LowersWell := by
  intro exported
  cases decl with
  | classDecl _ name _ _ _ members =>
    rintro _ ⟨⟩
    have members := List.forall_mem_singleton.mp (List.forall_mem_cons.mp h).2
    refine List.forall_mem_singleton.mpr (Class.ofClass_wellFormed (Tree.token?_isName names spelled) ?_ ?_)
    · exact fun m hm => (members (classMember m) (List.mem_map_of_mem hm)).1
    · exact fun m hm => (members (classMember m) (List.mem_map_of_mem hm)).2
  | interfaceDecl _ decl =>
    rintro _ ⟨⟩
    have inner := List.forall_mem_singleton.mp h
    exact List.forall_mem_singleton.mpr (inner (interface decl) List.mem_cons_self exported)
  | moduleDecl _ path elements =>
    rintro _ ⟨⟩
    have inner := ModuleElement.lowerAll_wellFormed (List.forall_mem_singleton.mp h)
    intro _ mem
    obtain ⟨c, hc, rfl⟩ := List.mem_map.mp mem
    exact Class.within_wellFormed (inner c hc) _
  | variableDecl | functionDecl | enumDecl | unknown => exact fun _ h => nomatch h

theorem element_lowersWell {e : Element} (h : ∀ row ∈ (element e).parts, RowLowersWell row) :
    (element e).LowersWell := by
  cases e with
  | interfaceElement _ exported decl =>
    have inner := List.forall_mem_singleton.mp h
    exact List.forall_mem_singleton.mpr (inner (interface decl) List.mem_cons_self exported)
  | ambientElement _ exported decl =>
    have inner := List.forall_mem_singleton.mp h
    show ∀ c ∈ ((AmbientDecl.lower? exported decl).getD {}).classes, c.WellFormed
    cases lowered : AmbientDecl.lower? exported decl with
    | none => exact fun _ h => absurd h List.not_mem_nil
    | some l => exact inner (ambient decl) List.mem_cons_self exported l lowered
  | bare | link | unknown => exact fun _ h => absurd h List.not_mem_nil

/-- a node lowers well if its names are spelled in a tree of good names and its parts lower well -/
theorem lowersWell {n : Node} (names : ∀ t ∈ children, t.WellNamed)
    (unreserved : (Tree.node label loc children).Unreserved) (spelled : n.SpelledIn label children)
    (h : ∀ row ∈ n.parts, RowLowersWell row) : n.LowersWell := by
  cases n with
  | type => exact type_lowersWell names unreserved spelled h
  | param p =>
    exact ⟨Tree.token?_isName names spelled,
      TypeRef.ofParam_wellFormed (TypeExpr.ofOption_wellFormed (List.forall_mem_singleton.mp h))⟩
  | member m =>
    cases m with
    | method =>
      rintro _ ⟨⟩
      exact Signature.method_wellFormed h
    | property | call | construct | index | unknown => exact fun _ h => nomatch h
  | interface decl =>
    have members := List.forall_mem_singleton.mp (List.forall_mem_cons.mp h).2
    exact Class.ofInterface_wellFormed (Tree.token?_isName names spelled)
      fun m hm => members (member m) (List.mem_map_of_mem hm)
  | classMember => exact classMember_lowersWell h
  | ambient => exact ambient_lowersWell names spelled h
  | element => exact element_lowersWell h

end Node

/-! ## Trees -/

mutual

/-- a node of a tree whose names are good lowers well -/
theorem Grown.lowersWell : ∀ {t : Tree} {n : Node}, Grown t n → t.WellNamed → t.Unreserved → n.LowersWell
  | _, _, .mk _ spelled parts _, .node inner open_, unreserved =>
    Node.lowersWell inner unreserved spelled fun row hr =>
      GrownRow.lowersWell (parts row hr) rfl inner open_

theorem GrownRow.lowersWell : ∀ {strict : Bool} {owner : Label} {ts : List Tree} {ns : List Node},
    GrownRow strict owner ts ns → strict = true → (∀ t ∈ ts, t.WellNamed) →
    (owner.inherits = false → ∀ t ∈ ts, t.Unreserved) → Node.RowLowersWell ns
  | _, _, _, _, .nil, _, _, _ => fun _ h => absurd h List.not_mem_nil
  | _, _, _, _, .skip further, strict, names, unreserved =>
    GrownRow.lowersWell further strict (List.forall_mem_cons.mp names).2
      fun owned => (List.forall_mem_cons.mp (unreserved owned)).2
  | _, _, _, _, .take owned _ here further, strict, names, unreserved =>
    List.forall_mem_cons.mpr ⟨Grown.lowersWell here (List.forall_mem_cons.mp names).1
        (List.forall_mem_cons.mp (unreserved (owned strict))).1,
      GrownRow.lowersWell further strict (List.forall_mem_cons.mp names).2
        fun owned => (List.forall_mem_cons.mp (unreserved owned)).2⟩
  | _, _, _, _, .inner below further, strict, names, unreserved => by
    obtain ⟨here, names⟩ := List.forall_mem_cons.mp names
    cases here with
    | node inner open_ =>
      exact List.forall_mem_append.mpr ⟨GrownRow.lowersWell below strict inner open_,
        GrownRow.lowersWell further strict names fun owned => (List.forall_mem_cons.mp (unreserved owned)).2⟩

end

/-! ## Files -/

namespace SourceFile

/-- **Each class of a file that is read is well formed: the names of the class, its parameters and its types
are spelled as names, a module around it has a name, only a class has a constructor and it is exported, and no
type is called `void` or has arguments if its name is that of a predefined type.** -/
theorem lower_wellFormed {source : Text} {f : SourceFile} (accepted : read source = .ok f) :
    ∀ c ∈ f.lower.classes, c.WellFormed := by
  obtain ⟨d, parsed, elements⟩ := elements_of_read accepted
  have grown := @Element.ofTrees_grown (.phrase .file) rfl _ _ elements
  have names := elementTrees_wellNamed parsed
  have row := grown.lowersWell rfl (fun t ht => (names t ht).1) fun _ t ht => (names t ht).2
  intro c mem
  obtain ⟨l, hl, mem⟩ := List.mem_flatMap.mp mem
  obtain ⟨e, he, rfl⟩ := List.mem_map.mp hl
  have here := row (.ofElement e) (List.mem_map_of_mem he)
  cases e with
  | bare => exact absurd mem List.not_mem_nil
  | interfaceElement | ambientElement | link | unknown => exact here c mem

theorem lower_wellFormed_interfaceWithMethod :
    let type : TypeRef := .mk "b.c" []
    let method : Method := ⟨"f", [⟨"x", type⟩], none, some .any⟩
    let c : Class := ⟨"A", none, false, .interface, [method]⟩
    ∃ f, read "interface A \x7b f(x: b.c): any \x7d" = .ok f ∧ f.lower.classes = [c] ∧ c.WellFormed := by
  intro type method c
  exact ⟨_, read_interfaceWithMethod, rfl, lower_wellFormed read_interfaceWithMethod c List.mem_cons_self⟩

end SourceFile

end Typings
