import Typings.Proofs.Declaration.Fallbacks
import Typings.Proofs.Declaration.Growing
import Typings.Proofs.Syntax.Legible
/-!
# What is shown of types

Where the names in a tree are words and its string literals hold no opening bracket, what is shown of the types
that are read off it is clear of fallbacks.

* `TypeExpr.Shown`, `Param.Shown`, …   what is shown of a part is clear; types can stand in brackets;
* `Tree.Plain`                         a tree of words and of literals without opening brackets;
* `TypeExpr.ofTree_shown`              the types that are read off plain trees;
* `TypeMember.ofTrees_shown`           the members.
-/

namespace Typings
open Text

/-! ## Types -/

namespace Text

/-- the marks around the parts of types and declarations hold no opening bracket -/
theorem clear_mark {s : String} (h : (Text.ofString s).contains (.scalar '<') = false) :
    (Text.ofString s).Clear :=
  clear_of_not_mem (by simpa using h)

theorem isArgument_arrow {typeParams : List Text} {params result : Text} (h : ∀ p ∈ typeParams, p.IsArgument)
    (hp : params.Clear) (hr : result.Clear) : IsArgument (Text.arrow (Text.angled typeParams) params result) := by
  have behind := (((clear_mark (s := "(") rfl).append hp).append (clear_mark (s := ") => ") rfl)).append hr
  have whole := (clear_angled h).append behind
  unfold Text.arrow
  simp only [List.append_assoc] at whole behind ⊢
  cases typeParams with
  | nil => exact isArgument_head (by decide) behind
  | cons p typeParams => exact isArgument_head (by decide) whole

end Text

/-- what is shown of a type can stand in brackets -/
def TypeExpr.Shown (t : TypeExpr) : Prop := t.render.IsArgument

def TypeParam.Shown (p : TypeParam) : Prop := p.render.IsArgument

def Param.Shown (p : Param) : Prop := p.render.Clear

def Signature.Shown (s : Signature) : Prop := s.render.Clear

def TypeMember.Shown (m : TypeMember) : Prop := m.render.Clear

theorem TypeExpr.shown_renderAll {ts : List TypeExpr} (h : ∀ t ∈ ts, t.Shown) : ∀ p ∈ renderAll ts, p.IsArgument := by
  rw [renderAll_eq_map]
  exact List.forall_mem_map.mpr h

/-- a mark and the type behind it, if there is one -/
theorem TypeExpr.clear_behind {mark : Text} (clear : mark.Clear) {type : Option TypeExpr} (h : ∀ t ∈ type, t.Shown) :
    (Text.behind mark (render? type)).Clear := by
  refine .optional clear ?_
  cases type with
  | none => exact fun _ h => absurd h (Option.not_mem_none _)
  | some t =>
    rintro _ ⟨⟩
    exact (h t rfl).clear

theorem TypeParam.shown_renderAll {ps : List TypeParam} (h : ∀ p ∈ ps, p.Shown) :
    ∀ p ∈ renderAll ps, p.IsArgument := by
  rw [renderAll_eq_map]
  exact List.forall_mem_map.mpr h

theorem Param.clear_join {ps : List Param} (h : ∀ p ∈ ps, p.Shown) : (Text.join ", " (renderAll ps)).Clear := by
  rw [renderAll_eq_map]
  exact .join (clear_mark rfl) (List.forall_mem_map.mpr h)

namespace TypeExpr
variable {loc : Loc} {name : Text}

theorem shown_predefined (h : name.IsWord) : Shown (.predefined loc name) := by
  show name.IsArgument
  exact h.isArgument

theorem shown_reference (h : name.IsWord) {args : List TypeExpr} (hargs : ∀ t ∈ args, t.Shown) :
    Shown (.reference loc name args) := by
  show IsArgument (name ++ Text.angled (renderAll args))
  exact h.reference (shown_renderAll hargs)

theorem shown_query (h : name.IsWord) : Shown (.query loc name) := by
  show IsArgument (Text.ofString "typeof " ++ name)
  exact isArgument_head (by decide) ((clear_mark (s := "typeof ") rfl).append h.clear)

theorem shown_object {members : List TypeMember} (h : ∀ m ∈ members, m.Shown) : Shown (.object loc members) := by
  rw [Shown, render, TypeMember.renderAll_eq_map]
  have inner := Clear.join (clear_mark (s := "; ") rfl) (List.forall_mem_map.mpr h)
  unfold Text.braced
  split
  · exact isArgument_head (by decide) (clear_mark (s := "\x7b\x7d") rfl)
  · exact isArgument_head (by decide)
      (((clear_mark (s := "\x7b ") rfl).append inner).append (clear_mark (s := " \x7d") rfl))

theorem shown_array {element : TypeExpr} (h : element.Shown) : Shown (.array loc element) := by
  show IsArgument (element.render ++ Text.ofString "[]")
  exact IsArgument.array h

section
variable {typeParams : List TypeParam} {params : List Param} {result : TypeExpr}
  (hps : ∀ p ∈ typeParams, p.Shown) (hqs : ∀ p ∈ params, p.Shown) (hr : result.Shown)
include hps hqs hr

theorem shown_function : Shown (.function loc typeParams params result) := by
  show IsArgument (Text.arrow (Text.angled (TypeParam.renderAll typeParams)) (Text.join ", " (Param.renderAll params))
    result.render)
  exact isArgument_arrow (TypeParam.shown_renderAll hps) (Param.clear_join hqs) hr.clear

theorem shown_construct : Shown (.construct loc typeParams params result) := by
  show IsArgument (Text.ofString "new " ++ Text.arrow (Text.angled (TypeParam.renderAll typeParams))
    (Text.join ", " (Param.renderAll params)) result.render)
  exact isArgument_head (by decide) ((clear_mark (s := "new ") rfl).append
    (isArgument_arrow (TypeParam.shown_renderAll hps) (Param.clear_join hqs) hr.clear).clear)

end

end TypeExpr

theorem TypeParam.shown_mk {name : Text} (h : name.IsWord) {bound : Option TypeExpr} (hb : ∀ t ∈ bound, t.Shown) :
    Shown (.mk name bound) := by
  show Text.IsArgument (name ++ Text.behind " extends " (TypeExpr.render? bound))
  refine h.bounded ?_
  cases bound with
  | none => exact fun _ h => absurd h (Option.not_mem_none _)
  | some t =>
    rintro _ ⟨⟩
    exact (hb t rfl).clear

/-- a name, a mark behind it and its type -/
theorem clear_ascribed {name : Text} (h : name.Clear) (optional : Bool) {type : Option TypeExpr}
    (ht : ∀ t ∈ type, t.Shown) :
    (name ++ Text.when optional "?" ++ Text.behind ": " (TypeExpr.render? type)).Clear :=
  (h.append (.when optional (clear_mark rfl))).append (TypeExpr.clear_behind (clear_mark rfl) ht)

namespace Param
variable {loc : Loc} {name : Text} {type : Option TypeExpr} (h : name.IsWord) (ht : ∀ t ∈ type, t.Shown)
include h ht

theorem shown_single {optional : Bool} {accessibility : Option Text} (ha : ∀ w ∈ accessibility, w.Clear) :
    Shown (.single loc name type optional accessibility) := by
  rw [Shown, render, List.append_assoc, List.append_assoc, ← List.append_assoc name]
  exact (Clear.spaced ha).append (clear_ascribed h.clear optional ht)

theorem shown_rest : Shown (.rest loc name type) := by
  show Text.Clear (Text.ofString "..." ++ name ++ Text.behind ": " (TypeExpr.render? type))
  exact ((clear_mark rfl).append h.clear).append (TypeExpr.clear_behind (clear_mark rfl) ht)

end Param

/-- the type parameters and the parameters of a signature -/
def Signature.HeadsShown (heads : List TypeParam × List Param) : Prop :=
  (∀ p ∈ heads.1, p.Shown) ∧ ∀ p ∈ heads.2, p.Shown

theorem Signature.HeadsShown.empty : HeadsShown ([], []) := ⟨List.forall_mem_nil _, List.forall_mem_nil _⟩

theorem Signature.shown_mk {typeParams : List TypeParam} {params : List Param} {result : Option TypeExpr}
    (h : HeadsShown (typeParams, params)) (hr : ∀ t ∈ result, t.Shown) : Shown (.mk typeParams params result) := by
  show Text.Clear (Text.angled (TypeParam.renderAll typeParams) ++ "(" ++ Text.join ", " (Param.renderAll params) ++ ")" ++
    Text.behind ": " (TypeExpr.render? result))
  exact ((((clear_angled (TypeParam.shown_renderAll h.1)).append (clear_mark rfl)).append
    (Param.clear_join h.2)).append (clear_mark rfl)).append (TypeExpr.clear_behind (clear_mark rfl) hr)

namespace TypeMember
variable {loc : Loc} {name : Text} {signature : Signature}

theorem shown_property (h : name.Clear) {type : Option TypeExpr} (ht : ∀ t ∈ type, t.Shown) {optional : Bool} :
    Shown (.property loc name type optional) := by
  show Text.Clear (name ++ Text.when optional "?" ++ Text.behind ": " (TypeExpr.render? type))
  exact clear_ascribed h optional ht

theorem shown_method (h : name.Clear) (hs : signature.Shown) {optional : Bool} :
    Shown (.method loc name signature optional) := by
  show Text.Clear (name ++ Text.when optional "?" ++ signature.render)
  exact (h.append (.when optional (clear_mark rfl))).append hs

theorem shown_call (hs : signature.Shown) : Shown (.call loc signature) := by
  show signature.render.Clear
  exact hs

theorem shown_construct (hs : signature.Shown) : Shown (.construct loc signature) := by
  show Text.Clear (Text.ofString "new " ++ signature.render)
  exact (clear_mark rfl).append hs

theorem shown_index (h : name.Clear) {keyType valueType : TypeExpr} (hk : keyType.Shown) (hv : valueType.Shown) :
    Shown (.index loc name keyType valueType) := by
  show Text.Clear (Text.ofString "[" ++ name ++ ": " ++ keyType.render ++ "]: " ++ valueType.render)
  exact (((((clear_mark rfl).append h).append (clear_mark rfl)).append hk.clear).append (clear_mark rfl)).append
    hv.clear

end TypeMember

/-! ## Plain trees -/

namespace Tree

/-- the children of a node whose text is taken as it stands, of whatever class they are -/
def verbatim (label : Label) (children : List Tree) : List Tree :=
  match label with
  | .phrase .predefinedType | .phrase .accessibility => children
  | .phrase .enumMember => children.tail
  | _ => []

/-- the names are words, and no string literal has a value with an opening bracket -/
inductive Plain : Tree → Prop
  | leaf {k : Option Terminal} {text : Text} {loc : Loc} (word : k ≠ some .STRING → text.IsWord)
      (value : k = some .STRING → ∀ v, Literal.decode text = .ok v → .scalar '<' ∉ v) : Plain (.leaf k text loc)
  | node {label : Label} {loc : Loc} {children : List Tree} (inner : ∀ t ∈ children, Plain t)
      (words : ∀ t ∈ verbatim label children, t.symbol? ≠ some (.terminal .STRING)) : Plain (.node label loc children)

theorem Plain.inner {label : Label} {loc : Loc} {children : List Tree} (h : Plain (.node label loc children)) :
    ∀ t ∈ children, t.Plain := by
  cases h with
  | node inner _ => exact inner

theorem verbatim_subset (label : Label) (children : List Tree) : verbatim label children ⊆ children := by
  unfold verbatim
  split
  · exact List.Subset.refl _
  · exact List.Subset.refl _
  · exact fun _ => List.mem_of_mem_tail
  · exact List.nil_subset _

/-- a text that is taken as it stands is a word -/
theorem Plain.verbatim {label : Label} {loc l : Loc} {children : List Tree} {k : Option Terminal} {text : Text}
    (h : Plain (.node label loc children)) (mem : .leaf k text l ∈ verbatim label children) : text.IsWord := by
  cases h with
  | node inner words =>
    cases inner _ (verbatim_subset label children mem) with
    | leaf word _ => exact word fun e => words _ mem (congrArg (Option.map Symbol.terminal) e)

section
variable {ts : List Tree} (plain : ∀ t ∈ ts, t.Plain)
include plain

theorem token?_isWord {kind : Terminal} (other : kind ≠ .STRING) : ∀ text ∈ token? kind ts, text.IsWord := by
  induction ts with
  | nil => exact fun _ h => absurd h (Option.not_mem_none _)
  | cons t ts ih =>
    obtain ⟨here, further⟩ := List.forall_mem_cons.mp plain
    cases here with
    | node => exact ih further
    | leaf word _ =>
      rw [token?]
      split
      · rename_i isKind
        rintro _ ⟨⟩
        exact word fun e => other (Option.some.inj (isKind ▸ e))
      · exact ih further

theorem names_isWord : ∀ name ∈ names ts, name.IsWord := by
  induction ts with
  | nil => exact fun _ h => absurd h List.not_mem_nil
  | cons t ts ih =>
    obtain ⟨here, further⟩ := List.forall_mem_cons.mp plain
    cases here with
    | node => exact ih further
    | leaf word _ =>
      rw [names]
      split
      · rename_i isName
        exact List.forall_mem_cons.mpr ⟨word fun e => absurd (isName.symm.trans e) (by decide), ih further⟩
      · exact ih further

theorem child?_plain {part : Nonterminal} {found : Loc × List Tree} (h : child? part ts = some found) :
    Plain (.node (.phrase part) found.1 found.2) := by
  induction ts with
  | nil => cases h
  | cons t ts ih =>
    obtain ⟨here, further⟩ := List.forall_mem_cons.mp plain
    cases t with
    | leaf => exact ih further h
    | node label loc children =>
      rw [child?] at h
      split at h
      · rename_i e
        cases h
        exact e ▸ here
      · exact ih further h

theorem token_shown {label : Label} {loc : Loc} {kind : Terminal} (other : kind ≠ .STRING) :
    Gives IsWord (token label loc kind ts) :=
  fun text e => token?_isWord plain other text (token_gives label loc kind ts text e)

theorem entity_shown {label : Label} {loc : Loc} : Gives IsWord (entity label loc ts) := by
  intro name e
  obtain ⟨found, isChild, rfl⟩ := entity_gives label loc ts name e
  exact IsWord.join ⟨by decide, by decide⟩ (names_isWord (child?_plain plain isChild).inner)

/-- the type or the word in a phrase of a file -/
theorem accessibility_shown : Gives (fun a => ∀ w ∈ a, w.Clear) (accessibility ts) := by
  unfold accessibility
  cases found : child? .accessibility ts with
  | none => exact .ok fun _ h => absurd h (Option.not_mem_none _)
  | some parts =>
    have plain' := child?_plain plain found
    obtain ⟨place, children⟩ := parts
    cases children with
    | nil => exact .error
    | cons t rest =>
      cases t with
      | node => exact .error
      | leaf k text loc =>
        refine .ok ?_
        rintro _ ⟨⟩
        exact (plain'.verbatim (l := loc) (k := k) List.mem_cons_self).clear

end

/-! ### Literals -/

section
variable {k : Option Terminal} {text : Text} {loc : Loc}

theorem literal_shown (value : ∀ v, Literal.decode text = .ok v → .scalar '<' ∉ v) :
    Gives (fun v => .scalar '<' ∉ v) (literal text loc) := by
  unfold literal
  cases e : Literal.decode text with
  | ok v => exact .ok (value v e)
  | error => exact .error

theorem memberName_shown (h : Plain (.leaf k text loc)) : Gives Clear (memberName k text loc) := by
  cases h with
  | leaf word value =>
    unfold memberName
    split
    · rename_i isString
      exact fun v e => clear_of_not_mem (literal_shown (value isString) v e)
    · rename_i other
      exact .ok (word other).clear

end

section
variable {ts : List Tree} (plain : ∀ t ∈ ts, t.Plain)
include plain

theorem propertyName_shown {label : Label} {loc : Loc} : Gives Clear (propertyName label loc ts) := by
  induction ts with
  | nil => exact .error
  | cons t ts ih =>
    obtain ⟨here, further⟩ := List.forall_mem_cons.mp plain
    cases t with
    | node => exact ih further
    | leaf k text place =>
      rw [propertyName]
      split
      · exact memberName_shown here
      · exact ih further

theorem literal?_shown : ∀ r ∈ literal? ts, Gives (fun v => .scalar '<' ∉ v) r := by
  induction ts with
  | nil => exact fun _ h => absurd h (Option.not_mem_none _)
  | cons t ts ih =>
    obtain ⟨here, further⟩ := List.forall_mem_cons.mp plain
    cases here with
    | node => exact ih further
    | leaf _ value =>
      rw [literal?]
      split
      · rename_i isString
        rintro _ ⟨⟩
        exact literal_shown (value isString)
      · exact ih further

theorem source_shown {label : Label} {loc : Loc} : Gives (fun v => .scalar '<' ∉ v) (source label loc ts) := by
  unfold source
  cases found : literal? ts with
  | none => exact .error
  | some r => exact literal?_shown plain r found

theorem path_shown : Gives (fun path => ∀ segment ∈ path, segment.Clear) (path ts) := by
  induction ts with
  | nil => exact .ok (List.forall_mem_nil _)
  | cons t ts ih =>
    obtain ⟨here, further⟩ := List.forall_mem_cons.mp plain
    cases here with
    | node => exact ih further
    | leaf word value =>
      rw [path]
      split
      · rename_i isString
        exact (literal_shown (value isString)).bind fun _ segment => (ih further).bind fun _ segments =>
          .ok (List.forall_mem_cons.mpr ⟨clear_of_not_mem segment, segments⟩)
      · split
        · rename_i other _
          exact (ih further).bind fun _ segments => .ok (List.forall_mem_cons.mpr ⟨(word other).clear, segments⟩)
        · exact ih further

end

end Tree

/-! ## Types of plain trees -/

/-- the parts of a function type -/
structure FunctionParts.Shown (parts : FunctionParts) : Prop where
  typeParams : ∀ p ∈ parts.typeParams, p.Shown
  params : ∀ p ∈ parts.params, p.Shown
  result : ∀ r ∈ parts.result, Gives TypeExpr.Shown r

theorem FunctionParts.Shown.empty : FunctionParts.Shown {} :=
  ⟨List.forall_mem_nil _, List.forall_mem_nil _, fun _ h => absurd h (Option.not_mem_none _)⟩

theorem FunctionParts.type_shown {label : Label} {loc : Loc}
    {make : List TypeParam → List Param → TypeExpr → TypeExpr}
    (shown : ∀ {typeParams params result}, (∀ p ∈ typeParams, p.Shown) → (∀ p ∈ params, p.Shown) → result.Shown →
      (make typeParams params result).Shown)
    {parts : Except BuildError FunctionParts} (h : Gives FunctionParts.Shown parts) :
    Gives TypeExpr.Shown (FunctionParts.type label loc make parts) := by
  refine h.bind fun parts h => ?_
  cases e : parts.result with
  | none => exact .error
  | some result => exact (h.result result e).bind fun _ hr => .ok (shown h.typeParams h.params hr)

theorem Signature.ofParts_shown {heads : Except BuildError (List TypeParam × List Param)}
    {result : Except BuildError (Option TypeExpr)} (h : Gives HeadsShown heads)
    (h' : Gives (fun t => ∀ type ∈ t, type.Shown) result) : Gives Signature.Shown (ofParts heads result) :=
  h.bind fun _ heads => h'.bind fun _ result => .ok (shown_mk heads result)

theorem TypeMember.indexOfParts_shown {label : Label} {loc : Loc} {key : Except BuildError Text}
    {keyType : Option (Except BuildError TypeExpr)} {valueType : Except BuildError (Option TypeExpr)}
    (hn : Gives IsWord key) (hk : ∀ r ∈ keyType, Gives TypeExpr.Shown r)
    (hv : Gives (fun t => ∀ type ∈ t, type.Shown) valueType) :
    Gives TypeMember.Shown (indexOfParts label loc key keyType valueType) := by
  refine hn.bind fun name word => ?_
  cases keyType with
  | none => exact .error
  | some keyType =>
    refine hv.bind fun value hv => ?_
    cases value with
    | none => exact .error
    | some value => exact (hk keyType rfl).bind fun _ hk => .ok (shown_index word.clear hk (hv value rfl))

mutual

theorem TypeExpr.ofTree_shown : ∀ t : Tree, t.Plain → Gives TypeExpr.Shown (TypeExpr.ofTree t)
  | .leaf .., _ => .error
  | .node label loc children, plain => by
    unfold TypeExpr.ofTree
    split
    · refine Gives.bind (P := IsWord) ?_ fun _ word => .ok (TypeExpr.shown_predefined word)
      cases children with
      | nil => exact .error
      | cons t rest =>
        cases t with
        | node => exact .error
        | leaf k text place => exact .ok (plain.verbatim (l := place) (k := k) List.mem_cons_self)
    · exact (Tree.entity_shown plain.inner).bind fun _ word =>
        (TypeExpr.argumentsIn_shown children plain.inner).bind fun _ args => .ok (TypeExpr.shown_reference word args)
    · exact (Tree.entity_shown plain.inner).bind fun _ word => .ok (TypeExpr.shown_query word)
    · exact (TypeMember.ofTrees_shown children plain.inner).bind fun _ members => .ok (TypeExpr.shown_object members)
    · cases e : TypeExpr.firstIn? children with
      | none => exact .error
      | some r => exact (TypeExpr.firstIn?_shown children plain.inner r e).bind fun _ first => .ok (TypeExpr.shown_array first)
    · exact FunctionParts.type_shown TypeExpr.shown_function (FunctionParts.ofTrees_shown children plain.inner {} .empty)
    · exact FunctionParts.type_shown TypeExpr.shown_construct (FunctionParts.ofTrees_shown children plain.inner {} .empty)
    · exact .error

theorem TypeExpr.ofTrees_shown : ∀ ts : List Tree, (∀ t ∈ ts, t.Plain) →
    Gives (fun xs => ∀ x ∈ xs, x.Shown) (TypeExpr.ofTrees ts)
  | [], _ => .ok (List.forall_mem_nil _)
  | .leaf .. :: rest, plain => TypeExpr.ofTrees_shown rest (List.forall_mem_cons.mp plain).2
  | .node label loc children :: rest, plain =>
    (TypeExpr.ofTree_shown (.node label loc children) (List.forall_mem_cons.mp plain).1).bind fun _ here =>
      (TypeExpr.ofTrees_shown rest (List.forall_mem_cons.mp plain).2).bind fun _ further =>
        .ok (List.forall_mem_cons.mpr ⟨here, further⟩)

theorem TypeExpr.firstIn?_shown : ∀ ts : List Tree, (∀ t ∈ ts, t.Plain) →
    ∀ r ∈ TypeExpr.firstIn? ts, Gives TypeExpr.Shown r
  | [], _, _, h => nomatch h
  | .leaf .. :: rest, plain, r, h => TypeExpr.firstIn?_shown rest (List.forall_mem_cons.mp plain).2 r h
  | .node label loc children :: rest, plain, r, h => by
    cases h
    exact TypeExpr.ofTree_shown (.node label loc children) (List.forall_mem_cons.mp plain).1

theorem TypeExpr.argumentsIn_shown : ∀ ts : List Tree, (∀ t ∈ ts, t.Plain) →
    Gives (fun xs => ∀ x ∈ xs, x.Shown) (TypeExpr.argumentsIn ts)
  | [], _ => .ok (List.forall_mem_nil _)
  | .leaf .. :: rest, plain => TypeExpr.argumentsIn_shown rest (List.forall_mem_cons.mp plain).2
  | .node label loc children :: rest, plain => by
    rw [TypeExpr.argumentsIn]
    split
    · exact TypeExpr.ofTrees_shown children (List.forall_mem_cons.mp plain).1.inner
    · exact TypeExpr.argumentsIn_shown rest (List.forall_mem_cons.mp plain).2

theorem TypeExpr.ascriptionIn_shown : ∀ ts : List Tree, (∀ t ∈ ts, t.Plain) →
    Gives (fun x => ∀ t ∈ x, t.Shown) (TypeExpr.ascriptionIn ts)
  | [], _ => .ok fun _ h => absurd h (Option.not_mem_none _)
  | .leaf .. :: rest, plain => TypeExpr.ascriptionIn_shown rest (List.forall_mem_cons.mp plain).2
  | .node label loc children :: rest, plain => by
    rw [TypeExpr.ascriptionIn]
    split
    · cases e : TypeExpr.firstIn? children with
      | none => exact .error
      | some r =>
        refine (TypeExpr.firstIn?_shown children (List.forall_mem_cons.mp plain).1.inner r e).bind fun _ first => .ok ?_
        rintro _ ⟨⟩
        exact first
    · exact TypeExpr.ascriptionIn_shown rest (List.forall_mem_cons.mp plain).2

theorem TypeExpr.keyTypeIn?_shown : ∀ ts : List Tree, (∀ t ∈ ts, t.Plain) →
    ∀ r ∈ TypeExpr.keyTypeIn? ts, Gives TypeExpr.Shown r
  | [], _, _, h => nomatch h
  | .leaf .. :: rest, plain, r, h => TypeExpr.keyTypeIn?_shown rest (List.forall_mem_cons.mp plain).2 r h
  | .node label loc children :: rest, plain, r, h => by
    rw [TypeExpr.keyTypeIn?] at h
    split at h
    · cases h
      exact TypeExpr.ofTree_shown (.node label loc children) (List.forall_mem_cons.mp plain).1
    · exact TypeExpr.keyTypeIn?_shown rest (List.forall_mem_cons.mp plain).2 r h

theorem TypeParam.ofTrees_shown : ∀ ts : List Tree, (∀ t ∈ ts, t.Plain) →
    Gives (fun xs => ∀ x ∈ xs, x.Shown) (TypeParam.ofTrees ts)
  | [], _ => .ok (List.forall_mem_nil _)
  | .leaf .. :: rest, plain => TypeParam.ofTrees_shown rest (List.forall_mem_cons.mp plain).2
  | .node label loc children :: rest, plain => by
    obtain ⟨here, further⟩ := List.forall_mem_cons.mp plain
    rw [TypeParam.ofTrees]
    split
    · refine (Tree.token_shown here.inner (by decide)).bind fun _ word => ?_
      cases e : TypeExpr.firstIn? children with
      | none =>
        exact (TypeParam.ofTrees_shown rest further).bind fun _ more => .ok (List.forall_mem_cons.mpr
          ⟨TypeParam.shown_mk word fun _ h => absurd h (Option.not_mem_none _), more⟩)
      | some r =>
        refine (TypeExpr.firstIn?_shown children here.inner r e).bind fun _ first =>
          (TypeParam.ofTrees_shown rest further).bind fun _ more =>
            .ok (List.forall_mem_cons.mpr ⟨TypeParam.shown_mk word ?_, more⟩)
        rintro _ ⟨⟩
        exact first
    · exact TypeParam.ofTrees_shown rest further

theorem Param.ofTrees_shown : ∀ ts : List Tree, (∀ t ∈ ts, t.Plain) →
    Gives (fun xs => ∀ x ∈ xs, x.Shown) (Param.ofTrees ts)
  | [], _ => .ok (List.forall_mem_nil _)
  | .leaf .. :: rest, plain => Param.ofTrees_shown rest (List.forall_mem_cons.mp plain).2
  | .node label loc children :: rest, plain => by
    obtain ⟨here, further⟩ := List.forall_mem_cons.mp plain
    rw [Param.ofTrees]
    refine (Tree.token_shown here.inner (by decide)).bind fun _ word =>
      (TypeExpr.ascriptionIn_shown children here.inner).bind fun _ type => ?_
    split
    · exact (Param.ofTrees_shown rest further).bind fun _ more =>
        .ok (List.forall_mem_cons.mpr ⟨Param.shown_rest word type, more⟩)
    · exact (Tree.accessibility_shown here.inner).bind fun _ access =>
        (Param.ofTrees_shown rest further).bind fun _ more =>
          .ok (List.forall_mem_cons.mpr ⟨Param.shown_single word type access, more⟩)

theorem FunctionParts.ofTrees_shown : ∀ ts : List Tree, (∀ t ∈ ts, t.Plain) → ∀ parts : FunctionParts, parts.Shown →
    Gives FunctionParts.Shown (FunctionParts.ofTrees parts ts)
  | [], _, _, h => .ok h
  | .leaf .. :: rest, plain, parts, h => FunctionParts.ofTrees_shown rest (List.forall_mem_cons.mp plain).2 parts h
  | .node label loc children :: rest, plain, parts, h => by
    obtain ⟨here, further⟩ := List.forall_mem_cons.mp plain
    rw [FunctionParts.ofTrees]
    split
    · exact (TypeParam.ofTrees_shown children here.inner).bind fun _ typeParams =>
        FunctionParts.ofTrees_shown rest further _ { h with typeParams }
    · split
      · exact (Param.ofTrees_shown children here.inner).bind fun _ params =>
          FunctionParts.ofTrees_shown rest further _ { h with params }
      · refine FunctionParts.ofTrees_shown rest further _ { h with result := ?_ }
        rintro _ ⟨⟩
        exact TypeExpr.ofTree_shown (.node label loc children) here

theorem Signature.headsIn_shown : ∀ ts : List Tree, (∀ t ∈ ts, t.Plain) →
    ∀ heads : List TypeParam × List Param, Signature.HeadsShown heads →
      Gives Signature.HeadsShown (Signature.headsIn heads ts)
  | [], _, _, h => .ok h
  | .leaf .. :: rest, plain, heads, h => Signature.headsIn_shown rest (List.forall_mem_cons.mp plain).2 heads h
  | .node label loc children :: rest, plain, heads, h => by
    obtain ⟨here, further⟩ := List.forall_mem_cons.mp plain
    rw [Signature.headsIn]
    split
    · exact (TypeParam.ofTrees_shown children here.inner).bind fun _ typeParams =>
        Signature.headsIn_shown rest further _ ⟨typeParams, h.2⟩
    · split
      · exact (Param.ofTrees_shown children here.inner).bind fun _ params =>
          Signature.headsIn_shown rest further _ ⟨h.1, params⟩
      · exact Signature.headsIn_shown rest further heads h

theorem Signature.callIn_shown (label : Label) (loc : Loc) : ∀ ts : List Tree, (∀ t ∈ ts, t.Plain) →
    Gives Signature.Shown (Signature.callIn label loc ts)
  | [], _ => .error
  | .leaf .. :: rest, plain => Signature.callIn_shown label loc rest (List.forall_mem_cons.mp plain).2
  | .node inner _ children :: rest, plain => by
    obtain ⟨here, further⟩ := List.forall_mem_cons.mp plain
    rw [Signature.callIn]
    split
    · exact Signature.ofParts_shown (Signature.headsIn_shown children here.inner ([], []) .empty)
        (TypeExpr.ascriptionIn_shown children here.inner)
    · exact Signature.callIn_shown label loc rest further

theorem TypeMember.ofTree_shown : ∀ t : Tree, t.Plain → Gives TypeMember.Shown (TypeMember.ofTree t)
  | .leaf .., _ => .error
  | .node label loc children, plain => by
    have signature := Signature.ofParts_shown (Signature.headsIn_shown children plain.inner ([], []) .empty)
      (TypeExpr.ascriptionIn_shown children plain.inner)
    unfold TypeMember.ofTree
    split
    · exact (Tree.propertyName_shown plain.inner).bind fun _ name =>
        (TypeExpr.ascriptionIn_shown children plain.inner).bind fun _ type => .ok (TypeMember.shown_property name type)
    · exact (Tree.propertyName_shown plain.inner).bind fun _ name =>
        (Signature.callIn_shown _ loc children plain.inner).bind fun _ signature => .ok (TypeMember.shown_method name signature)
    · exact signature.bind fun _ signature => .ok (TypeMember.shown_call signature)
    · exact signature.bind fun _ signature => .ok (TypeMember.shown_construct signature)
    · exact TypeMember.indexOfParts_shown (Tree.token_shown plain.inner (by decide))
        (TypeExpr.keyTypeIn?_shown children plain.inner) (TypeExpr.ascriptionIn_shown children plain.inner)
    · exact .error

theorem TypeMember.ofTrees_shown : ∀ ts : List Tree, (∀ t ∈ ts, t.Plain) →
    Gives (fun xs => ∀ x ∈ xs, x.Shown) (TypeMember.ofTrees ts)
  | [], _ => .ok (List.forall_mem_nil _)
  | .leaf .. :: rest, plain => TypeMember.ofTrees_shown rest (List.forall_mem_cons.mp plain).2
  | .node label loc children :: rest, plain =>
    (TypeMember.ofTree_shown (.node label loc children) (List.forall_mem_cons.mp plain).1).bind fun _ here =>
      (TypeMember.ofTrees_shown rest (List.forall_mem_cons.mp plain).2).bind fun _ further =>
        .ok (List.forall_mem_cons.mpr ⟨here, further⟩)

end

end Typings
