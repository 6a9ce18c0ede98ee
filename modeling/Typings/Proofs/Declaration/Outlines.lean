import Typings.Proofs.Declaration.ShownTypes
/-!
# What is shown of declarations

The lines that outline the declarations of a plain tree are clear of fallbacks.

* `InterfaceDecl.Shown`, `ClassMember.Shown`   what is shown of their parts is clear;
* `AmbientDecl.Shown`, `Element.Shown`         so are all lines of an outline;
* `AmbientDecl.ofTree_shown`                   the declarations that are read off plain trees;
* `Element.ofTrees_shown`                      the elements of a file.
-/

namespace Typings
open Text

/-! ## Interfaces -/

/-- a word and the types behind it -/
theorem Text.Clear.clause {word : Text} (h : word.Clear) {types : List TypeExpr} (hts : ∀ t ∈ types, t.Shown) :
    (Text.clause word types).Clear := by
  unfold Text.clause
  split
  · exact clear_nil
  · exact h.append (.join (clear_mark rfl) fun p mem => (TypeExpr.shown_renderAll hts p mem).clear)

theorem TypeParam.clear_renderList {ps : List TypeParam} (h : ∀ p ∈ ps, p.Shown) : (renderList ps).Clear :=
  clear_angled (shown_renderAll h)

namespace InterfaceDecl

/-- what is shown of the parts of an interface is clear -/
structure Shown (decl : InterfaceDecl) : Prop where
  name : decl.name.Clear
  typeParams : ∀ p ∈ decl.typeParams, p.Shown
  bases : ∀ t ∈ decl.bases, t.Shown
  members : ∀ m ∈ decl.members, m.Shown

section
variable {decl : InterfaceDecl} (h : decl.Shown) {indent : Text} (hi : indent.Clear)
include h hi

theorem Shown.heading : (decl.heading indent).Clear :=
  (((hi.append (clear_mark rfl)).append h.name).append (TypeParam.clear_renderList h.typeParams)).append
    (.clause (clear_mark rfl) h.bases)

theorem Shown.body : ∀ line ∈ decl.body indent, line.Clear :=
  List.forall_mem_map.mpr fun m mem => (hi.append (clear_mark rfl)).append (h.members m mem)

theorem Shown.outline : ∀ line ∈ decl.outline indent, line.Clear :=
  List.forall_mem_cons.mpr ⟨h.heading hi, h.body hi⟩

theorem Shown.outlineBehind {words : Text} (hw : words.Clear) :
    ∀ line ∈ decl.outlineBehind words indent, line.Clear :=
  List.forall_mem_cons.mpr ⟨hw.append (h.heading hi).trimStart, h.body hi⟩

end

theorem addTrees_shown : ∀ ts : List Tree, (∀ t ∈ ts, t.Plain) → ∀ decl : InterfaceDecl, decl.Shown →
    Gives Shown (decl.addTrees ts)
  | [], _, _, h => .ok h
  | .leaf .. :: rest, plain, decl, h => addTrees_shown rest (List.forall_mem_cons.mp plain).2 decl h
  | .node label loc children :: rest, plain, decl, h => by
    obtain ⟨here, further⟩ := List.forall_mem_cons.mp plain
    rw [addTrees]
    split
    · exact (TypeParam.ofTrees_shown children here.inner).bind fun _ typeParams =>
        addTrees_shown rest further _ { h with typeParams }
    · split
      · exact (TypeExpr.ofTrees_shown children here.inner).bind fun _ bases =>
          addTrees_shown rest further _ { h with bases }
      · split
        · exact (TypeMember.ofTrees_shown children here.inner).bind fun _ members =>
            addTrees_shown rest further _ { h with members }
        · exact addTrees_shown rest further decl h

theorem ofChildren_shown (loc : Loc) {children : List Tree} (plain : ∀ t ∈ children, t.Plain) :
    Gives Shown (ofChildren loc children) :=
  (Tree.token_shown plain (by decide)).bind fun _ word => addTrees_shown children plain _
    ⟨word.clear, List.forall_mem_nil _, List.forall_mem_nil _, List.forall_mem_nil _⟩

end InterfaceDecl

/-! ## Classes and enumerations -/

namespace ClassMember

/-- what is shown of a member is clear -/
def Shown (m : ClassMember) : Prop := m.render.Clear

variable {accessibility : Option Text} (ha : ∀ w ∈ accessibility, w.Clear) {loc : Loc} {name : Text}
  {optional static : Bool}
include ha

theorem clear_marks : (marks accessibility static).Clear := (Clear.spaced ha).append (.when static (clear_mark rfl))

theorem shown_initializer {params : List Param} (h : ∀ p ∈ params, p.Shown) :
    Shown (.initializer loc params accessibility) :=
  (((clear_marks ha).append (clear_mark rfl)).append (Param.clear_join h)).append (clear_mark rfl)

theorem shown_method (hn : name.Clear) {signature : Signature} (h : signature.Shown) :
    Shown (.method loc name signature optional static accessibility) :=
  (((clear_marks ha).append hn).append (.when optional (clear_mark rfl))).append h

theorem shown_field (hn : name.Clear) {type : Option TypeExpr} (h : ∀ t ∈ type, t.Shown) :
    Shown (.field loc name type optional static accessibility) := by
  rw [Shown, render, List.append_assoc, List.append_assoc, ← List.append_assoc name]
  exact (clear_marks ha).append (clear_ascribed hn optional h)

omit ha

theorem ofNode_shown {label : Label} {loc : Loc} {children : List Tree} (plain : ∀ t ∈ children, t.Plain) :
    Gives Shown (ofNode label loc children) := by
  unfold ofNode
  refine (Tree.accessibility_shown plain).bind fun _ access => ?_
  split
  · cases found : Tree.child? .parameterList children with
    | none => exact .ok (shown_initializer access (List.forall_mem_nil _))
    | some parts =>
      exact (Param.ofTrees_shown parts.2 (Tree.child?_plain plain found).inner).bind fun _ params =>
        .ok (shown_initializer access params)
  · exact (Tree.propertyName_shown plain).bind fun _ name =>
      (Signature.callIn_shown _ loc children plain).bind fun _ signature => .ok (shown_method access name signature)
  · exact (Tree.propertyName_shown plain).bind fun _ name =>
      (TypeExpr.ascriptionIn_shown children plain).bind fun _ type => .ok (shown_field access name type)
  · refine (Tree.child_gives _ loc .indexSignature children).bind fun parts found => ?_
    have inner := (Tree.child?_plain plain found).inner
    exact (TypeMember.indexOfParts_shown (Tree.token_shown inner (by decide)) (TypeExpr.keyTypeIn?_shown parts.2 inner)
      (TypeExpr.ascriptionIn_shown parts.2 inner)).bind fun _ signature => .ok signature
  · exact .error

end ClassMember

/-- what is shown of the parts of a class is clear -/
structure ClassParts.Shown (parts : ClassParts) : Prop where
  typeParams : ∀ p ∈ parts.typeParams, p.Shown
  base : ∀ t ∈ parts.base, t.Shown
  implements : ∀ t ∈ parts.implements, t.Shown
  members : ∀ m ∈ parts.members, m.Shown

theorem TypeExpr.baseIn_shown (loc : Loc) (ts : List Tree) (plain : ∀ t ∈ ts, t.Plain) :
    Gives Shown (baseIn loc ts) := by
  induction ts with
  | nil => exact .error
  | cons t rest ih =>
    obtain ⟨here, further⟩ := List.forall_mem_cons.mp plain
    cases t with
    | leaf => exact ih further
    | node label place children =>
      rw [baseIn]
      split
      · exact ofTree_shown (.node label place children) here
      · exact ih further

theorem ClassParts.addTrees_shown : ∀ ts : List Tree, (∀ t ∈ ts, t.Plain) → ∀ parts : ClassParts, parts.Shown →
    Gives Shown (parts.addTrees ts)
  | [], _, _, h => .ok h
  | .leaf .. :: rest, plain, parts, h => addTrees_shown rest (List.forall_mem_cons.mp plain).2 parts h
  | .node label loc children :: rest, plain, parts, h => by
    obtain ⟨here, further⟩ := List.forall_mem_cons.mp plain
    rw [addTrees]
    split
    · exact (TypeParam.ofTrees_shown children here.inner).bind fun _ typeParams =>
        addTrees_shown rest further _ { h with typeParams }
    · split
      · refine (TypeExpr.baseIn_shown loc children here.inner).bind fun _ base =>
          addTrees_shown rest further _ { h with base := ?_ }
        rintro _ ⟨⟩
        exact base
      · split
        · exact (TypeExpr.ofTrees_shown children here.inner).bind fun _ implements =>
            addTrees_shown rest further _ { h with implements }
        · exact (ClassMember.ofNode_shown here.inner).bind fun _ member => addTrees_shown rest further _
            { h with members := List.forall_mem_append.mpr ⟨h.members, List.forall_mem_singleton.mpr member⟩ }

theorem Tree.mem_of_tokens {ts : List Tree} : ∀ x ∈ Tree.tokens ts, Tree.leaf x.1 x.2.1 x.2.2 ∈ ts := by
  induction ts with
  | nil => exact fun _ h => absurd h List.not_mem_nil
  | cons t ts ih =>
    cases t with
    | node => exact fun x mem => List.mem_cons_of_mem _ (ih x mem)
    | leaf k text loc =>
      rw [tokens]
      exact List.forall_mem_cons.mpr ⟨List.mem_cons_self, fun x mem => List.mem_cons_of_mem _ (ih x mem)⟩

/-- all tokens but the first one are behind the first child -/
theorem Tree.mem_tail_of_tokens {ts : List Tree} : ∀ x ∈ (Tree.tokens ts).tail, Tree.leaf x.1 x.2.1 x.2.2 ∈ ts.tail := by
  cases ts with
  | nil => exact fun _ h => absurd h List.not_mem_nil
  | cons t ts =>
    cases t with
    | node => exact fun x mem => mem_of_tokens x (List.mem_of_mem_tail mem)
    | leaf k text loc => exact mem_of_tokens

theorem EnumMember.ofTrees_shown (ts : List Tree) (plain : ∀ t ∈ ts, t.Plain) :
    Gives (fun ms => ∀ m ∈ ms, m.render.Clear) (ofTrees ts) := by
  induction ts with
  | nil => exact .ok (List.forall_mem_nil _)
  | cons t rest ih =>
    obtain ⟨here, further⟩ := List.forall_mem_cons.mp plain
    cases t with
    | leaf => exact ih further
    | node label loc children =>
      rw [ofTrees]
      split
      · rename_i isMember
        subst isMember
        split
        · exact .error
        · rename_i kind text place more tokens
          have first := here.inner _ (Tree.mem_of_tokens (kind, text, place) (tokens ▸ List.mem_cons_self))
          refine (Tree.memberName_shown first).bind fun _ name => (ih further).bind fun _ members =>
            .ok (List.forall_mem_cons.mpr ⟨name.append (.optional (clear_mark rfl) ?_), members⟩)
          cases more with
          | nil => exact fun _ h => absurd h (Option.not_mem_none _)
          | cons value more =>
            rintro _ ⟨⟩
            refine (here.verbatim (l := value.2.2) (k := value.1) ?_).clear
            exact Tree.mem_tail_of_tokens value (tokens ▸ List.mem_cons_self)
      · exact ih further

/-! ## Imports and exports -/

theorem Binding.ofTrees_shown (ts : List Tree) (plain : ∀ t ∈ ts, t.Plain) :
    Gives (fun bs => ∀ b ∈ bs, b.render.Clear) (ofTrees ts) := by
  induction ts with
  | nil => exact .ok (List.forall_mem_nil _)
  | cons t rest ih =>
    obtain ⟨here, further⟩ := List.forall_mem_cons.mp plain
    cases t with
    | leaf => exact ih further
    | node label loc children =>
      rw [ofTrees]
      split
      · split
        · exact .error
        · rename_i name more names
          have words := names ▸ Tree.names_isWord here.inner
          refine (ih further).bind fun _ bindings => .ok (List.forall_mem_cons.mpr
            ⟨(words name List.mem_cons_self).clear.append (.optional (clear_mark rfl) ?_), bindings⟩)
          cases more with
          | nil => exact fun _ h => absurd h (Option.not_mem_none _)
          | cons renamed more =>
            rintro _ ⟨⟩
            exact (words renamed (List.mem_cons_of_mem _ List.mem_cons_self)).clear
      · exact ih further

theorem ModuleLink.ofNode?_shown {label : Label} {loc : Loc} {children : List Tree}
    (plain : ∀ t ∈ children, t.Plain) :
    Gives (fun x => ∀ l ∈ x, l.render.Clear) (ofNode? label loc children) := by
  have good : ∀ {l : ModuleLink}, l.render.Clear → Gives (fun x => ∀ l ∈ x, l.render.Clear) (.ok (some l)) := by
    refine fun clear => .ok ?_
    rintro _ ⟨⟩
    exact clear
  unfold ofNode?
  split
  · exact (Tree.token_shown plain (by decide)).bind fun _ name => (Tree.entity_shown plain).bind fun _ entity =>
      good ((((clear_mark rfl).append name.clear).append (clear_mark rfl)).append entity.clear)
  · exact (Tree.token_shown plain (by decide)).bind fun _ name => (Tree.source_shown plain).bind fun _ source =>
      good (((((clear_mark rfl).append name.clear).append (clear_mark rfl)).append (clear_encode source)).append
        (clear_mark rfl))
  · exact (Tree.source_shown plain).bind fun _ source => .skip fun _ =>
      good ((clear_mark rfl).append (clear_encode source))
  · exact (Tree.entity_shown plain).bind fun _ entity => good ((clear_mark rfl).append entity.clear)
  · exact (Tree.entity_shown plain).bind fun _ entity => good ((clear_mark rfl).append entity.clear)
  · refine (Tree.child_gives _ loc .namedBindings children).bind fun parts found =>
      (Binding.ofTrees_shown parts.2 (Tree.child?_plain plain found).inner).bind fun bindings shown => ?_
    have clear : (Text.ofString "export \x7b " ++ Text.join ", " (bindings.map Binding.render) ++
        Text.ofString " \x7d").Clear :=
      ((clear_mark rfl).append (.join (clear_mark rfl) (List.forall_mem_map.mpr shown))).append (clear_mark rfl)
    cases Tree.literal? children with
    | none => exact good clear
    | some value => exact .skip fun _ => good clear
  · exact .ok fun _ h => absurd h (Option.not_mem_none _)

/-! ## Declarations -/

/-- all lines of an outline are clear -/
def AmbientDecl.Shown (decl : AmbientDecl) : Prop :=
  ∀ (indent : Text) (exported : Bool), indent.Clear → ∀ line ∈ decl.outline indent exported, line.Clear

def Element.Shown (e : Element) : Prop :=
  ∀ (indent : Text) (exported : Bool), indent.Clear → ∀ line ∈ e.outline indent exported, line.Clear

def ModuleElement.ShownAll (es : List ModuleElement) : Prop :=
  ∀ indent : Text, indent.Clear → ∀ line ∈ outlineAll indent es, line.Clear

theorem Text.Clear.declared {indent : Text} (h : indent.Clear) (exported : Bool) :
    (Text.declared indent exported).Clear :=
  (h.append (.when exported (clear_mark rfl))).append (clear_mark rfl)

namespace AmbientDecl
variable {loc : Loc} {name : Text} (hn : name.Clear)

section
include hn

theorem shown_variableDecl {type : Option TypeExpr} (h : ∀ t ∈ type, t.Shown) :
    Shown (.variableDecl loc name type) := by
  intro indent exported hi
  rw [outline]
  exact List.forall_mem_singleton.mpr
    ((((hi.declared exported).append (clear_mark rfl)).append hn).append (TypeExpr.clear_behind (clear_mark rfl) h))

theorem shown_functionDecl {signature : Signature} (h : signature.Shown) :
    Shown (.functionDecl loc name signature) := by
  intro indent exported hi
  rw [outline]
  exact List.forall_mem_singleton.mpr ((((hi.declared exported).append (clear_mark rfl)).append hn).append h)

theorem shown_classDecl {parts : ClassParts} (h : parts.Shown) :
    Shown (.classDecl loc name parts.typeParams parts.base parts.implements parts.members) := by
  intro indent exported hi
  rw [outline]
  refine List.forall_mem_cons.mpr ⟨?_, List.forall_mem_map.mpr fun m mem =>
    (hi.append (clear_mark rfl)).append (h.members m mem)⟩
  exact (((((hi.declared exported).append (clear_mark rfl)).append hn).append
    (TypeParam.clear_renderList h.typeParams)).append (TypeExpr.clear_behind (clear_mark rfl) h.base)).append
      (.clause (clear_mark rfl) h.implements)

theorem shown_enumDecl {members : List EnumMember} {constant : Bool} (h : ∀ m ∈ members, m.render.Clear) :
    Shown (.enumDecl loc name members constant) := by
  intro indent exported hi
  rw [outline]
  have front := (((hi.declared exported).append (.when constant (clear_mark (s := "const ") rfl))).append
    (clear_mark (s := "enum ") rfl)).append hn
  exact List.forall_mem_singleton.mpr (((front.append (clear_mark (s := " \x7b ") rfl)).append
    (.join (clear_mark (s := ", ") rfl) (List.forall_mem_map.mpr h))).append (clear_mark (s := " \x7d") rfl))

end

theorem shown_interfaceDecl {decl : InterfaceDecl} (h : decl.Shown) : Shown (.interfaceDecl loc decl) := by
  intro indent exported hi
  rw [outline]
  exact h.outlineBehind hi (hi.declared exported)

theorem shown_moduleDecl {path : List Text} (hp : ∀ segment ∈ path, segment.Clear) {elements : List ModuleElement}
    (h : ModuleElement.ShownAll elements) : Shown (.moduleDecl loc path elements) := by
  intro indent exported hi
  rw [outline]
  exact List.forall_mem_cons.mpr ⟨((hi.declared exported).append (clear_mark rfl)).append (.join (clear_mark rfl) hp),
    h _ (hi.append (clear_mark rfl))⟩

end AmbientDecl

namespace Element
variable {loc : Loc} {exported : Bool}

theorem shown_interfaceElement {decl : InterfaceDecl} (h : decl.Shown) :
    Shown (.interfaceElement loc exported decl) := by
  intro indent _ hi
  rw [outline]
  split
  · exact h.outlineBehind hi (hi.append (clear_mark rfl))
  · exact h.outline hi

theorem shown_ambientElement {decl : AmbientDecl} (h : decl.Shown) : Shown (.ambientElement loc exported decl) := by
  intro indent _ hi
  rw [outline]
  exact h indent exported hi

theorem shown_bare {decl : AmbientDecl} (h : decl.Shown) : Shown (.bare decl) := by
  intro indent exported hi
  rw [outline]
  exact h indent exported hi

theorem shown_link {link : ModuleLink} (h : link.render.Clear) : Shown (.link link) := by
  intro indent _ hi
  rw [outline]
  exact List.forall_mem_singleton.mpr (hi.append h)

end Element

namespace ModuleElement

theorem shownAll_nil : ShownAll [] := by
  intro indent _
  rw [outlineAll]
  exact List.forall_mem_nil _

theorem shownAll_cons {exported : Bool} {element : Element} {rest : List ModuleElement} (here : element.Shown)
    (further : ShownAll rest) : ShownAll (.mk exported element :: rest) := by
  intro indent hi
  rw [outlineAll]
  exact List.forall_mem_append.mpr ⟨here indent exported hi, further indent hi⟩

end ModuleElement

/-! ## Declarations of plain trees -/

mutual

theorem AmbientDecl.ofTree_shown : ∀ t : Tree, t.Plain → Gives AmbientDecl.Shown (AmbientDecl.ofTree t)
  | .leaf .., _ => .error
  | .node label loc children, plain => by
    have name {label : Label} : Gives IsWord (Tree.token label loc .NAME children) :=
      Tree.token_shown plain.inner (by decide)
    unfold AmbientDecl.ofTree
    split
    · exact name.bind fun _ name => (TypeExpr.ascriptionIn_shown children plain.inner).bind fun _ type =>
        .ok (AmbientDecl.shown_variableDecl name.clear type)
    · exact name.bind fun _ name => (Signature.callIn_shown _ loc children plain.inner).bind fun _ signature =>
        .ok (AmbientDecl.shown_functionDecl name.clear signature)
    · refine name.bind fun _ name => (ClassParts.addTrees_shown children plain.inner {} ?_).bind fun _ parts =>
        .ok (AmbientDecl.shown_classDecl name.clear parts)
      exact ⟨List.forall_mem_nil _, fun _ h => absurd h (Option.not_mem_none _), List.forall_mem_nil _,
        List.forall_mem_nil _⟩
    · exact (Tree.child_gives _ loc .interfaceDeclaration children).bind fun parts found =>
        (InterfaceDecl.ofChildren_shown parts.1 (Tree.child?_plain plain.inner found).inner).bind fun _ decl =>
          .ok (AmbientDecl.shown_interfaceDecl decl)
    · exact name.bind fun _ name => (EnumMember.ofTrees_shown children plain.inner).bind fun _ members =>
        .ok (AmbientDecl.shown_enumDecl name.clear members)
    · exact (Tree.child_gives _ loc .moduleName children).bind fun parts found =>
        (Tree.path_shown (Tree.child?_plain plain.inner found).inner).bind fun _ path =>
          (ModuleElement.ofTrees_shown children plain.inner true).bind fun _ elements =>
            .ok (AmbientDecl.shown_moduleDecl path elements)
    · exact .error

theorem AmbientDecl.firstIn?_shown : ∀ ts : List Tree, (∀ t ∈ ts, t.Plain) →
    ∀ r ∈ AmbientDecl.firstIn? ts, Gives AmbientDecl.Shown r
  | [], _, _, h => nomatch h
  | .leaf .. :: rest, plain, r, h => AmbientDecl.firstIn?_shown rest (List.forall_mem_cons.mp plain).2 r h
  | .node label loc children :: rest, plain, r, h => by
    cases h
    exact AmbientDecl.ofTree_shown (.node label loc children) (List.forall_mem_cons.mp plain).1

theorem ModuleElement.ofTrees_shown : ∀ ts : List Tree, (∀ t ∈ ts, t.Plain) → ∀ skipName : Bool,
    Gives ModuleElement.ShownAll (ModuleElement.ofTrees skipName ts)
  | [], _, _ => .ok ModuleElement.shownAll_nil
  | .leaf .. :: rest, plain, skipName => ModuleElement.ofTrees_shown rest (List.forall_mem_cons.mp plain).2 skipName
  | .node label loc children :: rest, plain, skipName => by
    obtain ⟨here, further⟩ := List.forall_mem_cons.mp plain
    rw [ModuleElement.ofTrees]
    split
    · exact ModuleElement.ofTrees_shown rest further false
    · split
      · cases e : AmbientDecl.firstIn? children with
        | none => exact .error
        | some r =>
          exact (AmbientDecl.firstIn?_shown children here.inner r e).bind fun _ first =>
            (ModuleElement.ofTrees_shown rest further skipName).bind fun _ more =>
              .ok (ModuleElement.shownAll_cons (Element.shown_bare first) more)
      · refine (ModuleLink.ofNode?_shown here.inner).bind fun link shown => ?_
        cases link with
        | none => exact .error
        | some link =>
          exact (ModuleElement.ofTrees_shown rest further skipName).bind fun _ more =>
            .ok (ModuleElement.shownAll_cons (Element.shown_link (shown link rfl)) more)

end

theorem Element.ofNode?_shown {label : Label} {loc : Loc} {children : List Tree} (plain : ∀ t ∈ children, t.Plain) :
    Gives (fun x => ∀ e ∈ x, e.Shown) (Element.ofNode? label loc children) := by
  unfold Element.ofNode?
  split
  · refine (Tree.child_gives _ loc .interfaceDeclaration children).bind fun parts found =>
      (InterfaceDecl.ofChildren_shown parts.1 (Tree.child?_plain plain found).inner).bind fun _ decl => .ok ?_
    rintro _ ⟨⟩
    exact shown_interfaceElement decl
  · cases e : AmbientDecl.firstIn? children with
    | none => exact .error
    | some r =>
      refine (AmbientDecl.firstIn?_shown children plain r e).bind fun _ first => .ok ?_
      rintro _ ⟨⟩
      exact shown_ambientElement first
  · refine (ModuleLink.ofNode?_shown plain).bind fun link shown => .ok ?_
    cases link with
    | none => exact fun _ h => absurd h (Option.not_mem_none _)
    | some link =>
      rintro _ ⟨⟩
      exact shown_link (shown link rfl)

theorem Element.ofTrees_shown (ts : List Tree) (plain : ∀ t ∈ ts, t.Plain) :
    Gives (fun es => ∀ e ∈ es, e.Shown) (Element.ofTrees ts) := by
  induction ts with
  | nil => exact .ok (List.forall_mem_nil _)
  | cons t rest ih =>
    obtain ⟨here, further⟩ := List.forall_mem_cons.mp plain
    cases t with
    | leaf => exact ih further
    | node label loc children =>
      refine (Element.ofNode?_shown here.inner).bind fun element shown =>
        (ih further).bind fun _ more => .ok (List.forall_mem_append.mpr ⟨?_, more⟩)
      cases element with
      | none => exact List.forall_mem_nil _
      | some element => exact List.forall_mem_singleton.mpr (shown element rfl)

/-- the outline of a file is clear if all its lines are -/
theorem SourceFile.clear_render {f : SourceFile} (h : ∀ e ∈ f.elements, e.Shown) : f.render.Clear := by
  refine .join (clear_mark rfl) fun line mem => ?_
  obtain ⟨e, he, mem⟩ := List.mem_flatMap.mp mem
  exact h e he [] false clear_nil line mem

end Typings
