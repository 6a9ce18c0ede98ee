import Typings.Proofs.Declaration.MemberTexts
import Typings.Proofs.Report.Conversion
import Typings.Proofs.Report.Printing
/-!
# Keywords as names

In an interface a keyword is a name wherever only a name fits.  Its methods may have any names but `new`,
and their parameters any names but those of the keywords that say who may see a parameter.

* `Element.ofTrees_interface`       an interface is read from its tree;
* `InterfaceDecl.readsTo`           an interface of members that are read back;
* `MethodNames`                     a method as a text, as a member, and in the class model;
* `SourceFile.read_methodNames`     the main result.
-/

namespace Typings
open Terminal Nonterminal

/-! ## Interfaces -/

/-- an interface with a semicolon behind each member -/
def Text.interface (name : Text) (members : List Text) : Text :=
  Text.ofString "interface " ++ name ++ Text.ofString " \x7b " ++
    members.flatMap (fun m => m ++ Text.ofString "; ") ++ Text.ofString "\x7d"

/-- the text of an interface as its parts -/
theorem Text.interface_eq (name : Text) (members : List Text) : interface name members =
    Text.ofString "interface" ++ (Text.ofString " " ++ (name ++ (Text.ofString " " ++ (Text.ofString "\x7b" ++
      (members.flatMap (fun m => Text.ofString " " ++ (m ++ Text.ofString ";")) ++ Text.ofString " \x7d"))))) := by
  have closing : Text.ofString " \x7d" = Text.ofString " " ++ Text.ofString "\x7d" := rfl
  rw [closing, ← List.append_assoc (List.flatMap _ members), ← Text.flatMap_spaced, interface]
  simp only [List.append_assoc]
  rfl

/-- an interface of members is read from its tree -/
theorem Element.ofTrees_interface {name : Text} {members : List TypeMember} {ts : List Tree}
    (reads : TypeMember.ofTrees ts = .ok members) :
    ofTrees [.node (.phrase Nonterminal.interfaceElement) Cursor.start.loc [
      .node (.phrase interfaceDeclaration) Cursor.start.loc [.leaf (some NAME) name Cursor.start.loc,
        .node (.phrase objectType) Cursor.start.loc ts]]] =
      .ok [.interfaceElement Cursor.start.loc false ⟨Cursor.start.loc, name, [], [], members⟩] := by
  have built : InterfaceDecl.ofChildren Cursor.start.loc
      [.leaf (some NAME) name Cursor.start.loc, .node (.phrase objectType) Cursor.start.loc ts] =
      .ok ⟨Cursor.start.loc, name, [], [], members⟩ := by
    show InterfaceDecl.addTrees ⟨Cursor.start.loc, name, [], [], []⟩
      [.leaf (some NAME) name Cursor.start.loc, .node (.phrase objectType) Cursor.start.loc ts] = _
    rw [InterfaceDecl.addTrees, InterfaceDecl.addTrees, if_neg (by decide), if_neg (by decide), if_pos rfl, reads]
    rfl
  show (InterfaceDecl.ofChildren Cursor.start.loc _ >>= _) >>= _ = _
  rw [built]
  rfl

/-- an interface of members that are read back is read as it, with its places as the first one -/
theorem InterfaceDecl.readsTo {name : Text} {members : List TypeMember} (isName : name.isName = true)
    (h : ∀ m ∈ members, m.ReadsBack) :
    ∃ d, SourceFile.ReadsTo (Text.interface name (members.map TypeMember.render))
      [.interfaceElement Cursor.start.loc false
        ⟨Cursor.start.loc, name, [], [], TypeMember.movedAll Loc.first members⟩] d := by
  obtain ⟨ts, writes, reads⟩ := TypeMember.writes_closed h
  have isInterface : INTERFACE.spelling? = some "interface" := rfl
  have body := (writes []).spaced (List.cons_ne_nil _ _)
  have named := (body.name isName (Writes.free_nil name) (Text.apart_cons (by decide) _)).spaced
    (List.cons_ne_nil _ _)
  have row := named.sign isInterface nofun rfl (Text.not_begins_cons (goesOn_space _) _) []
  have decl := row.node (n := interfaceDeclaration) (by decide) (List.nil_subset _) rfl
  have written := decl.node (n := interfaceElement) (by decide) (List.nil_subset _) rfl
  rw [Text.interface_eq, List.flatMap_map]
  exact written.readsTo (by with_unfolding_all decide) (by decide +kernel) (Element.ofTrees_interface reads)

/-! ## Methods by their names -/

/-- a method by its name and the names of its parameters -/
structure MethodNames where
  name : Text
  params : List Text

namespace MethodNames

/-- the method with parameters of no type and with any result, in writing -/
def text (m : MethodNames) : Text :=
  m.name ++ Text.ofString "(" ++ Text.join ", " m.params ++ Text.ofString "): any"

def param (name : Text) : Param := .single Cursor.start.loc name none false none

/-- the method as a member that stands at the first place, like its parts -/
def member (m : MethodNames) : TypeMember :=
  .method Cursor.start.loc m.name (.mk [] (m.params.map param) (some (.predefined Cursor.start.loc "any"))) false

/-- the method in the class model -/
def method (m : MethodNames) : Method where
  name := m.name
  params := m.params.map fun p => ⟨p, .string⟩
  rest := none
  result := some .any

/-- the method has any name but `new`, and its parameters have any names but those of three keywords -/
structure Legible (m : MethodNames) : Prop where
  isName : m.name.isName = true
  other : m.name ≠ "new"
  params : ∀ p ∈ m.params, p.isName = true ∧ p ∉ (["public", "private", "protected"] : List Text)

variable {m : MethodNames}

theorem render_member (m : MethodNames) : m.member.render = m.text := by
  have plain (p : Text) : (param p).render = p := by
    show Text.ofString "" ++ p ++ Text.ofString "" ++ Text.ofString "" = p
    simp only [show Text.ofString "" = [] from rfl, List.nil_append, List.append_nil]
  have params : Param.renderAll (m.params.map param) = m.params := by
    rw [Param.renderAll_eq_map, List.map_map]
    exact List.map_id'' plain _
  have split : m.member.render = m.name ++ Text.ofString "" ++ (Text.ofString "" ++ Text.ofString "(" ++
    Text.join ", " (Param.renderAll (m.params.map param)) ++ Text.ofString ")" ++ Text.ofString ": any") := rfl
  rw [split, params, text]
  simp only [List.append_assoc]
  rfl

theorem moved_member (m : MethodNames) : m.member.moved Loc.first = m.member := by
  have params : Param.movedAll Loc.first (m.params.map param) = m.params.map param := by
    rw [Param.movedAll_eq_map, List.map_map]
    rfl
  rw [member, TypeMember.moved, Signature.moved, params]
  rfl

theorem readsBack (h : m.Legible) : m.member.ReadsBack := by
  have isAny : ANY.spelling? = some "any" := rfl
  have params : ∀ p ∈ m.params.map param, p.ReadsBack := by
    refine List.forall_mem_map.mpr fun p mem => ?_
    obtain ⟨isName, other⟩ := h.params p mem
    simp only [List.mem_cons, List.not_mem_nil, or_false, not_or] at other
    obtain ⟨isPublic, isPrivate, isProtected⟩ := other
    refine Param.readsBack_plain isName ?_ fun _ h => absurd h (Option.not_mem_none _)
    simp only [accessWords, List.forall_mem_cons]
    exact ⟨Terminal.isWord_eq_false rfl isPublic, Terminal.isWord_eq_false rfl isPrivate,
      Terminal.isWord_eq_false rfl isProtected, fun _ h => absurd h List.not_mem_nil⟩
  have named : m.name.NamesMember :=
    .name h.isName (List.forall_mem_singleton.mpr (Terminal.isWord_eq_false rfl h.other))
  refine TypeMember.readsBack_method named
    (Signature.readsBack (fun _ h => absurd h List.not_mem_nil) params ?_)
  rintro _ ⟨⟩
  exact TypeExpr.readsBack_predefined (by decide) isAny

/-- none of the parameters is a rest parameter, and each is a string -/
theorem ofMember_member (m : MethodNames) : Method.ofMember? m.member = some m.method := by
  have others : (m.params.map param).filter (!·.isRest) = m.params.map param :=
    List.filter_eq_self.mpr (List.forall_mem_map.mpr fun _ _ => rfl)
  have rest : (m.params.map param).find? Param.isRest = none :=
    List.find?_eq_none.mpr (List.forall_mem_map.mpr fun _ _ => Bool.false_ne_true)
  show some (Method.ofSignature m.name (m.params.map param) _) = _
  rw [Method.ofSignature, Param.split, others, rest, List.map_map]
  rfl

end MethodNames

/-! ## The interface -/

namespace SourceFile

/-- **Keywords are names where only a name fits: an interface of any name, with methods of any names but
`new` and parameters of any names but `public`, `private` and `protected`, is read as it is written, and
becomes one class with these methods.** -/
theorem read_methodNames {name : Text} {methods : List MethodNames} (isName : name.isName = true)
    (h : ∀ m ∈ methods, m.Legible) :
    (∃ f, read (Text.interface name (methods.map MethodNames.text)) = .ok f ∧
      f.unplaced = ⟨[.interfaceElement Cursor.start.loc false
        ⟨Cursor.start.loc, name, [], [], methods.map MethodNames.member⟩]⟩) ∧
    ∀ o, (convert o (Text.interface name (methods.map MethodNames.text))).diagnostics = [] ∧
      (convert o (Text.interface name (methods.map MethodNames.text))).lowered =
        ⟨[], [⟨name, none, false, .interface, methods.map MethodNames.method⟩]⟩ := by
  have readsBack : ∀ m ∈ methods.map MethodNames.member, m.ReadsBack :=
    List.forall_mem_map.mpr fun m mem => MethodNames.readsBack (h m mem)
  obtain ⟨d, readsTo⟩ := InterfaceDecl.readsTo isName readsBack
  have texts : (methods.map MethodNames.member).map TypeMember.render = methods.map MethodNames.text := by
    rw [List.map_map]
    exact List.map_congr_left fun m _ => m.render_member
  have members : TypeMember.movedAll Loc.first (methods.map MethodNames.member) =
      methods.map MethodNames.member := by
    rw [TypeMember.movedAll_eq_map, List.map_map]
    exact List.map_congr_left fun m _ => m.moved_member
  have lowers : (methods.map MethodNames.member).filterMap Method.ofMember? = methods.map MethodNames.method := by
    rw [List.filterMap_map]
    exact (List.filterMap_congr fun m _ => m.ofMember_member).trans (congrFun List.filterMap_eq_map _)
  rw [texts, members] at readsTo
  obtain ⟨f, done, unplaced⟩ := readsTo.read
  refine ⟨⟨f, done, unplaced⟩, fun o => ?_⟩
  have lowered : f.lower = ⟨[], [⟨name, none, false, .interface, methods.map MethodNames.method⟩]⟩ := by
    rw [← lower_moved (fun _ => Cursor.start.loc) f]
    show f.unplaced.lower = _
    rw [unplaced, ← lowers]
    rfl
  rw [Conversion.convert_of_ok done]
  exact ⟨rfl, lowered⟩

/-- an interface named `class`, with methods and parameters named like keywords -/
def keywordMethods : List MethodNames := [⟨"declare", ["new", "any", "new"]⟩, ⟨"constructor", []⟩, ⟨"public", ["static"]⟩]

theorem read_keywordMethods :
    Text.interface "class" (keywordMethods.map MethodNames.text) = Text.ofString
      "interface class \x7b declare(new, any, new): any; constructor(): any; public(static): any; \x7d" ∧
    (∀ m ∈ keywordMethods, m.Legible) ∧
    (∃ f, read (Text.interface "class" (keywordMethods.map MethodNames.text)) = .ok f ∧
      f.unplaced = ⟨[.interfaceElement Cursor.start.loc false
        ⟨Cursor.start.loc, "class", [], [], keywordMethods.map MethodNames.member⟩]⟩) ∧
    ∀ o, (convert o (Text.interface "class" (keywordMethods.map MethodNames.text))).diagnostics = [] ∧
      (convert o (Text.interface "class" (keywordMethods.map MethodNames.text))).lowered =
        ⟨[], [⟨"class", none, false, .interface, keywordMethods.map MethodNames.method⟩]⟩ := by
  have legible : ∀ m ∈ keywordMethods, m.Legible := by
    simp only [keywordMethods, List.forall_mem_cons]
    refine ⟨⟨by decide, by decide, by decide⟩, ⟨by decide, by decide, by decide⟩,
      ⟨by decide, by decide, by decide⟩, fun _ h => absurd h List.not_mem_nil⟩
  exact ⟨by decide +kernel, legible, read_methodNames (by decide) legible⟩

end SourceFile

end Typings
