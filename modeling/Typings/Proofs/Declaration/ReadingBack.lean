import Typings.Proofs.Declaration.Growing
import Typings.Proofs.Declaration.MemberTexts
import Typings.Proofs.Syntax.Legible
/-!
# Types of legible trees

What is read off a legible tree is printed in words that are read back: a type, and all that a type is made of.

* `Tree.AllLegible`                  trees that are legible, with names that are read as references;
* `Tree.name_gives`, …               the names in a row of legible trees;
* `TypeExpr.ofTree_readsBack`        a type that is read off a legible tree is read back;
* `TypeMember.ofTree_readsBack`, …   so is all that types are made of.
-/

namespace Typings
open Terminal Nonterminal

theorem Gives.and {α : Type} {P Q : α → Prop} {r : Except BuildError α} (h : Gives P r) (h' : Gives Q r) :
    Gives (fun x => P x ∧ Q x) r := fun x e => ⟨h x e, h' x e⟩

/-! ## Names -/

namespace Tree

/-- legible trees, with no type reference that begins with a keyword of types -/
def AllLegible (ts : List Tree) : Prop := ∀ t ∈ ts, t.Legible ∧ t.RefersFree typeWords

theorem AllLegible.legible {ts : List Tree} (h : AllLegible ts) : ∀ t ∈ ts, t.Legible := fun t ht => (h t ht).1

/-- the trees of a node, unless it is a row of bases -/
theorem Legible.allChildren {label : Label} {loc : Loc} {children : List Tree} (h : Legible (.node label loc children))
    (base : label.inherits = false) : AllLegible children := by
  cases h with
  | node inner _ _ _ references => exact fun t ht => ⟨inner t ht, references base t ht⟩

/-- the trees in a list of parameters -/
theorem Legible.params {loc : Loc} {children : List Tree} (h : Legible (.node (.phrase parameterList) loc children)) :
    ∀ t ∈ children, t.IsFor [parameter, restParameter] := by
  cases h with
  | node _ inside => exact inside _ rfl

theorem label_of_param {label : Label} {loc : Loc} {children : List Tree}
    (isFor : IsFor [parameter, restParameter] (.node label loc children)) :
    label = .phrase parameter ∨ label = .phrase restParameter := by
  obtain ⟨s, mem, isFor⟩ := isFor
  cases label with
  | other => cases isFor
  | phrase n =>
    cases isFor
    rcases List.mem_cons.mp mem with e | mem
    · exact .inl (congrArg _ (Symbol.nonterminal.inj e))
    · exact .inr (congrArg _ (Symbol.nonterminal.inj (List.mem_singleton.mp mem)))

section
variable {ts : List Tree} (h : ∀ t ∈ ts, t.Legible)
include h

theorem names_of_legible : ∀ n ∈ names ts, n.isName = true := by
  induction ts with
  | nil => exact fun _ h => absurd h List.not_mem_nil
  | cons t ts ih =>
    obtain ⟨here, further⟩ := List.forall_mem_cons.mp h
    cases here with
    | leaf isToken =>
      rw [names]
      split
      · rename_i isName
        exact List.forall_mem_cons.mpr ⟨isToken.isName (Option.some.inj isName), ih further⟩
      · exact ih further
    | node => exact ih further

theorem legible_of_child {n : Nonterminal} {found : Loc × List Tree} (isChild : child? n ts = some found) :
    Legible (.node (.phrase n) found.1 found.2) := h _ (mem_of_child? isChild)

omit h in
theorem mem_names_of_token {text : Text} (found : token? NAME ts = some text) : text ∈ names ts := by
  induction ts with
  | nil => cases found
  | cons t ts ih =>
    cases t with
    | node => exact ih found
    | leaf k text loc =>
      rw [token?] at found
      rw [names]
      split at found
      · rename_i isName
        cases found
        rw [if_pos isName]
        exact List.mem_cons_self
      · rename_i other
        rw [if_neg other]
        exact ih found

/-- a name in the row -/
theorem name_gives (label : Label) (loc : Loc) :
    Gives (fun name => name ∈ names ts ∧ name.isName = true) (token label loc NAME ts) := fun _ e =>
  have mem := mem_names_of_token (token_gives label loc NAME ts _ e)
  ⟨mem, names_of_legible h _ mem⟩

/-- a dotted name in the row -/
theorem dotted_gives (label : Label) (loc : Loc) :
    Gives (fun text => ∃ first more, text = Text.join "." (first :: more) ∧ ∀ n ∈ first :: more, n.isName = true)
      (entity label loc ts) := by
  intro text e
  obtain ⟨found, isChild, rfl⟩ := entity_gives label loc ts text e
  cases legible_of_child h isChild with
  | node inner _ _ named =>
    obtain ⟨first, more, e⟩ := List.exists_cons_of_ne_nil (named rfl)
    refine ⟨first, more, ?_, e ▸ names_of_legible inner⟩
    rw [dotted, e]

/-- the name of a member in the row: there are no string literals -/
theorem propertyName_gives {l : List Symbol} (inside : ∀ t ∈ ts, t.IsFor l) (unquoted : .terminal STRING ∉ l)
    (free : ∀ n ∈ names ts, ∀ u ∈ [NEW], u.isWord n = false) (label : Label) (loc : Loc) :
    Gives Text.NamesMember (propertyName label loc ts) := by
  induction ts with
  | nil => exact .error
  | cons t ts ih =>
    obtain ⟨here, further⟩ := List.forall_mem_cons.mp h
    obtain ⟨isFor, insideRest⟩ := List.forall_mem_cons.mp inside
    cases here with
    | node => exact ih further insideRest free
    | @leaf k text loc' isToken =>
      have noString : some k ≠ some STRING := by
        intro e
        obtain ⟨s, mem, symbol⟩ := isFor
        cases e
        exact unquoted (Option.some.inj symbol ▸ mem)
      rw [names] at free
      rw [propertyName]
      split
      · rename_i isKind
        rw [memberName, if_neg noString]
        refine .ok ?_
        rcases isKind with e | e | e
        · cases e
          exact .name (isToken.isName rfl) (free text (by rw [if_pos rfl]; exact List.mem_cons_self))
        · exact absurd e noString
        · cases e
          exact .number isToken
      · rename_i other
        rw [if_neg fun e => other (.inl e)] at free
        exact ih further insideRest free

/-- the keyword that is the first tree -/
theorem headText_gives {words : List Terminal} (keywords : ∀ k ∈ words, k.isKeyword = true)
    (inside : ∀ t ∈ ts, t.IsFor (words.map .terminal)) (label : Label) (loc : Loc) :
    Gives (fun text => ∃ k ∈ words, ∃ s, k.spelling? = some s ∧ text = Text.ofString s) (headText label loc ts) := by
  cases ts with
  | nil => exact .error
  | cons t ts =>
    obtain ⟨s, mem, isFor⟩ := inside t List.mem_cons_self
    cases h t List.mem_cons_self with
    | node => exact .error
    | @leaf k _ _ isToken =>
      obtain ⟨k', isWord, rfl⟩ := List.mem_map.mp mem
      cases Option.some.inj isFor
      obtain ⟨spelling, spelled, rfl⟩ := isToken.exists_spelling (keywords k isWord)
      exact .ok ⟨k, isWord, spelling, spelled, rfl⟩

end

end Tree

/-! ## Types -/

open Typings.Tree

/-- what is read off the tree of a primary type is printed without parentheses in front of brackets -/
theorem TypeExpr.ofTree_form {t : Tree} (isFor : t.IsFor (primaries.map .nonterminal)) :
    Gives (fun x => x.form = primaryType) (TypeExpr.ofTree t) := by
  obtain ⟨s, mem, isFor⟩ := isFor
  cases t with
  | leaf => exact .error
  | node label loc children =>
    unfold TypeExpr.ofTree
    split
    · exact .skip fun _ => .ok rfl
    · exact .skip fun _ => .skip fun _ => .ok rfl
    · exact .skip fun _ => .ok rfl
    · exact .skip fun _ => .ok rfl
    · cases TypeExpr.firstIn? children with
      | none => exact .error
      | some r => exact .skip fun _ => .ok rfl
    · cases isFor
      exact absurd mem (by decide)
    · cases isFor
      exact absurd mem (by decide)
    · exact .error

theorem TypeExpr.firstIn?_form {ts : List Tree} (isFor : ∀ t ∈ ts, t.IsFor (primaries.map .nonterminal)) :
    ∀ r ∈ TypeExpr.firstIn? ts, Gives (fun x => x.form = primaryType) r := by
  induction ts with
  | nil => exact fun _ h => absurd h (Option.not_mem_none _)
  | cons t ts ih =>
    obtain ⟨here, further⟩ := List.forall_mem_cons.mp isFor
    cases t with
    | leaf => exact ih further
    | node =>
      rintro r ⟨⟩
      exact TypeExpr.ofTree_form here

/-- the parts of a function type are read back -/
structure FunctionParts.ReadsBack (parts : FunctionParts) : Prop where
  typeParams : ∀ p ∈ parts.typeParams, p.ReadsBack
  params : ∀ p ∈ parts.params, p.ReadsBack
  result : ∀ r ∈ parts.result, Gives TypeExpr.ReadsBack r

theorem FunctionParts.readsBack_empty : ReadsBack {} where
  typeParams _ h := absurd h List.not_mem_nil
  params _ h := absurd h List.not_mem_nil
  result _ h := absurd h (Option.not_mem_none _)

theorem FunctionParts.type_readsBack {label : Label} {loc : Loc}
    {make : List TypeParam → List Param → TypeExpr → TypeExpr}
    (made : ∀ typeParams params result, (∀ p ∈ typeParams, p.ReadsBack) → (∀ p ∈ params, p.ReadsBack) →
      result.ReadsBack → (make typeParams params result).ReadsBack)
    {parts : Except BuildError FunctionParts} (h : Gives FunctionParts.ReadsBack parts) :
    Gives TypeExpr.ReadsBack (FunctionParts.type label loc make parts) := by
  refine h.bind fun parts h => ?_
  cases e : parts.result with
  | none => exact .error
  | some result => exact (h.result result e).bind fun x hx => .ok (made _ _ x h.typeParams h.params hx)

theorem Signature.ofParts_readsBack {heads : Except BuildError (List TypeParam × List Param)}
    {result : Except BuildError (Option TypeExpr)}
    (h : Gives (fun heads => (∀ p ∈ heads.1, p.ReadsBack) ∧ ∀ p ∈ heads.2, p.ReadsBack) heads)
    (h' : Gives (fun t => ∀ x ∈ t, x.ReadsBack) result) : Gives ReadsBack (ofParts heads result) :=
  h.bind fun _ heads => h'.bind fun _ result => .ok (Signature.readsBack heads.1 heads.2 result)

theorem TypeMember.indexOfParts_readsBack {label : Label} {loc : Loc} {key : Except BuildError Text}
    {keyType : Option (Except BuildError TypeExpr)} {valueType : Except BuildError (Option TypeExpr)}
    (named : Gives (fun name => name.isName = true) key) (keyed : ∀ r ∈ keyType, Gives TypeExpr.ReadsBack r)
    (valued : Gives (fun t => ∀ x ∈ t, x.ReadsBack) valueType) :
    Gives ReadsBack (indexOfParts label loc key keyType valueType) := by
  refine named.bind fun name isName => ?_
  cases keyType with
  | none => exact .error
  | some keyType =>
    refine valued.bind fun value hv => ?_
    cases value with
    | none => exact .error
    | some value =>
      exact (keyed keyType rfl).bind fun x hx => .ok (TypeMember.readsBack_index isName hx (hv value rfl))

/-- a parameter of its parts, the accessibility last -/
theorem Param.single_readsBack {children : List Tree} {loc : Loc} {name : Text} {type : Option TypeExpr}
    (optional : Bool) (h : ∀ t ∈ children, t.Legible) (isName : name.isName = true)
    (free : ∀ u ∈ Tree.otherWords parameter children, u.isWord name = false) (typed : ∀ t ∈ type, t.ReadsBack) :
    Gives (fun a => Param.ReadsBack (.single loc name type optional a)) (Tree.accessibility children) := by
  rw [Tree.otherWords] at free
  rw [Tree.accessibility]
  cases isChild : child? Nonterminal.accessibility children with
  | none =>
    rw [isChild] at free
    exact .ok (Param.readsBack_plain isName free typed)
  | some found =>
    rw [isChild] at free
    obtain ⟨place, cs⟩ := found
    cases legible_of_child h isChild with
    | node inner inside =>
      intro a e
      cases read : headText (.phrase Nonterminal.accessibility) place cs with
      | error =>
        simp only [read] at e
        cases e
      | ok text =>
        simp only [read] at e
        cases e
        obtain ⟨k, access, s, spelled, rfl⟩ := headText_gives inner (by decide) (inside _ rfl) _ place text read
        exact Param.readsBack_marked access spelled isName free typed

mutual

theorem TypeExpr.ofTree_readsBack : ∀ t : Tree, t.Legible → t.RefersFree typeWords →
    Gives TypeExpr.ReadsBack (TypeExpr.ofTree t)
  | .leaf .., _, _ => .error
  | .node label loc children, h, free => by
    unfold TypeExpr.ofTree
    split
    · cases h with
      | node inner inside =>
        refine (headText_gives inner (by decide) (inside _ rfl) _ loc).bind fun text word => .ok ?_
        obtain ⟨k, mem, s, spelled, rfl⟩ := word
        exact TypeExpr.readsBack_predefined mem spelled
    · have all := h.allChildren rfl
      obtain ⟨found, first, more, isChild, isName, free⟩ := free
      refine (entity_gives _ loc children).bind fun name named =>
        (TypeExpr.argumentsIn_readsBack children all).bind fun args reads => .ok ?_
      obtain ⟨found', isChild', rfl⟩ := named
      obtain rfl := Option.some.inj (isChild.symm.trans isChild')
      cases legible_of_child all.legible isChild with
      | node inner =>
        rw [dotted, isName]
        exact TypeExpr.readsBack_reference (isName ▸ names_of_legible inner) free reads
    · refine (dotted_gives (h.allChildren rfl).legible _ loc).bind fun name named => .ok ?_
      obtain ⟨first, more, rfl, names⟩ := named
      exact TypeExpr.readsBack_query names
    · exact (TypeMember.ofTrees_readsBack children (h.allChildren rfl)).bind fun members reads =>
        .ok (TypeExpr.readsBack_object reads)
    · have all := h.allChildren rfl
      cases h with
      | node _ inside =>
        cases e : TypeExpr.firstIn? children with
        | none => exact .error
        | some r =>
          exact ((TypeExpr.firstIn?_readsBack children all r e).and
            (TypeExpr.firstIn?_form (inside _ rfl) r e)).bind fun element reads =>
              .ok (TypeExpr.readsBack_array reads.2 reads.1)
    · exact FunctionParts.type_readsBack (fun _ _ _ => TypeExpr.readsBack_function)
        (FunctionParts.ofTrees_readsBack children (h.allChildren rfl) {} FunctionParts.readsBack_empty)
    · exact FunctionParts.type_readsBack (fun _ _ _ => TypeExpr.readsBack_construct)
        (FunctionParts.ofTrees_readsBack children (h.allChildren rfl) {} FunctionParts.readsBack_empty)
    · exact .error

theorem TypeExpr.ofTrees_readsBack : ∀ ts : List Tree, AllLegible ts →
    Gives (fun xs => ∀ x ∈ xs, TypeExpr.ReadsBack x) (TypeExpr.ofTrees ts)
  | [], _ => .ok nofun
  | .leaf .. :: rest, h => TypeExpr.ofTrees_readsBack rest (List.forall_mem_cons.mp h).2
  | .node label loc children :: rest, h =>
    have ⟨here, further⟩ := List.forall_mem_cons.mp h
    (TypeExpr.ofTree_readsBack (.node label loc children) here.1 here.2).bind fun _ first =>
      (TypeExpr.ofTrees_readsBack rest further).bind fun _ more => .ok (List.forall_mem_cons.mpr ⟨first, more⟩)

theorem TypeExpr.firstIn?_readsBack : ∀ ts : List Tree, AllLegible ts → ∀ r ∈ TypeExpr.firstIn? ts,
    Gives TypeExpr.ReadsBack r
  | [], _, _, h => nomatch h
  | .leaf .. :: rest, h, r, hr => TypeExpr.firstIn?_readsBack rest (List.forall_mem_cons.mp h).2 r hr
  | .node label loc children :: rest, h, r, hr => by
    cases hr
    have here := h _ List.mem_cons_self
    exact TypeExpr.ofTree_readsBack (.node label loc children) here.1 here.2

theorem TypeExpr.argumentsIn_readsBack : ∀ ts : List Tree, AllLegible ts →
    Gives (fun xs => ∀ x ∈ xs, TypeExpr.ReadsBack x) (TypeExpr.argumentsIn ts)
  | [], _ => .ok nofun
  | .leaf .. :: rest, h => TypeExpr.argumentsIn_readsBack rest (List.forall_mem_cons.mp h).2
  | .node label loc children :: rest, h => by
    obtain ⟨here, further⟩ := List.forall_mem_cons.mp h
    rw [TypeExpr.argumentsIn]
    split
    · rename_i e
      subst e
      exact TypeExpr.ofTrees_readsBack children (here.1.allChildren rfl)
    · exact TypeExpr.argumentsIn_readsBack rest further

theorem TypeExpr.ascriptionIn_readsBack : ∀ ts : List Tree, AllLegible ts →
    Gives (fun t => ∀ x ∈ t, TypeExpr.ReadsBack x) (TypeExpr.ascriptionIn ts)
  | [], _ => .ok nofun
  | .leaf .. :: rest, h => TypeExpr.ascriptionIn_readsBack rest (List.forall_mem_cons.mp h).2
  | .node label loc children :: rest, h => by
    obtain ⟨here, further⟩ := List.forall_mem_cons.mp h
    rw [TypeExpr.ascriptionIn]
    split
    · rename_i e
      subst e
      cases e : TypeExpr.firstIn? children with
      | none => exact .error
      | some r =>
        refine (TypeExpr.firstIn?_readsBack children (here.1.allChildren rfl) r e).bind fun type reads => .ok ?_
        rintro _ ⟨⟩
        exact reads
    · exact TypeExpr.ascriptionIn_readsBack rest further

theorem TypeExpr.keyTypeIn?_readsBack : ∀ ts : List Tree, AllLegible ts → ∀ r ∈ TypeExpr.keyTypeIn? ts,
    Gives TypeExpr.ReadsBack r
  | [], _, _, h => nomatch h
  | .leaf .. :: rest, h, r, hr => TypeExpr.keyTypeIn?_readsBack rest (List.forall_mem_cons.mp h).2 r hr
  | .node label loc children :: rest, h, r, hr => by
    obtain ⟨here, further⟩ := List.forall_mem_cons.mp h
    rw [TypeExpr.keyTypeIn?] at hr
    split at hr
    · cases hr
      exact TypeExpr.ofTree_readsBack (.node label loc children) here.1 here.2
    · exact TypeExpr.keyTypeIn?_readsBack rest further r hr

theorem TypeParam.ofTrees_readsBack : ∀ ts : List Tree, AllLegible ts →
    Gives (fun ps => ∀ p ∈ ps, TypeParam.ReadsBack p) (TypeParam.ofTrees ts)
  | [], _ => .ok nofun
  | .leaf .. :: rest, h => TypeParam.ofTrees_readsBack rest (List.forall_mem_cons.mp h).2
  | .node label loc children :: rest, h => by
    obtain ⟨here, further⟩ := List.forall_mem_cons.mp h
    rw [TypeParam.ofTrees]
    split
    · rename_i e
      subst e
      have all := here.1.allChildren rfl
      refine (name_gives all.legible _ loc).bind fun name named => ?_
      cases e : TypeExpr.firstIn? children with
      | none =>
        exact (TypeParam.ofTrees_readsBack rest further).bind fun _ more =>
          .ok (List.forall_mem_cons.mpr ⟨TypeParam.readsBack named.2 nofun, more⟩)
      | some r =>
        refine (TypeExpr.firstIn?_readsBack children all r e).bind fun type reads =>
          (TypeParam.ofTrees_readsBack rest further).bind fun _ more =>
            .ok (List.forall_mem_cons.mpr ⟨TypeParam.readsBack named.2 ?_, more⟩)
        rintro _ ⟨⟩
        exact reads
    · exact TypeParam.ofTrees_readsBack rest further

theorem Param.ofTrees_readsBack : ∀ ts : List Tree, AllLegible ts →
    (∀ t ∈ ts, t.IsFor [parameter, restParameter]) → Gives (fun ps => ∀ p ∈ ps, Param.ReadsBack p) (Param.ofTrees ts)
  | [], _, _ => .ok nofun
  | .leaf .. :: rest, h, inside =>
    Param.ofTrees_readsBack rest (List.forall_mem_cons.mp h).2 (List.forall_mem_cons.mp inside).2
  | .node label loc children :: rest, h, inside => by
    obtain ⟨here, further⟩ := List.forall_mem_cons.mp h
    obtain ⟨isParam, insideRest⟩ := List.forall_mem_cons.mp inside
    have isLabel := label_of_param isParam
    have all := here.1.allChildren (by rcases isLabel with rfl | rfl <;> rfl)
    rw [Param.ofTrees]
    refine (name_gives all.legible label loc).bind fun name named =>
      (TypeExpr.ascriptionIn_readsBack children all).bind fun type typed => ?_
    split
    · exact (Param.ofTrees_readsBack rest further insideRest).bind fun _ more =>
        .ok (List.forall_mem_cons.mpr ⟨Param.readsBack_rest named.2 typed, more⟩)
    · rename_i other
      obtain rfl := isLabel.resolve_right other
      cases here.1 with
      | node _ _ others =>
        refine (Param.single_readsBack _ all.legible named.2 (others name named.1) typed).bind fun _ first =>
          (Param.ofTrees_readsBack rest further insideRest).bind fun _ more =>
            .ok (List.forall_mem_cons.mpr ⟨first, more⟩)

theorem FunctionParts.ofTrees_readsBack : ∀ ts : List Tree, AllLegible ts → ∀ parts : FunctionParts, parts.ReadsBack →
    Gives FunctionParts.ReadsBack (FunctionParts.ofTrees parts ts)
  | [], _, _, reads => .ok reads
  | .leaf .. :: rest, h, parts, reads =>
    FunctionParts.ofTrees_readsBack rest (List.forall_mem_cons.mp h).2 parts reads
  | .node label loc children :: rest, h, parts, reads => by
    obtain ⟨here, further⟩ := List.forall_mem_cons.mp h
    rw [FunctionParts.ofTrees]
    split
    · rename_i e
      subst e
      exact (TypeParam.ofTrees_readsBack children (here.1.allChildren rfl)).bind fun _ typeParams =>
        FunctionParts.ofTrees_readsBack rest further _ ⟨typeParams, reads.params, reads.result⟩
    · split
      · rename_i e
        subst e
        exact (Param.ofTrees_readsBack children (here.1.allChildren rfl) here.1.params).bind fun _ params =>
          FunctionParts.ofTrees_readsBack rest further _ ⟨reads.typeParams, params, reads.result⟩
      · refine FunctionParts.ofTrees_readsBack rest further _ ⟨reads.typeParams, reads.params, ?_⟩
        rintro _ ⟨⟩
        exact TypeExpr.ofTree_readsBack (.node label loc children) here.1 here.2

theorem Signature.headsIn_readsBack : ∀ ts : List Tree, AllLegible ts → ∀ heads : List TypeParam × List Param,
    ((∀ p ∈ heads.1, p.ReadsBack) ∧ ∀ p ∈ heads.2, p.ReadsBack) →
    Gives (fun heads => (∀ p ∈ heads.1, p.ReadsBack) ∧ ∀ p ∈ heads.2, p.ReadsBack) (Signature.headsIn heads ts)
  | [], _, _, reads => .ok reads
  | .leaf .. :: rest, h, heads, reads =>
    Signature.headsIn_readsBack rest (List.forall_mem_cons.mp h).2 heads reads
  | .node label loc children :: rest, h, heads, reads => by
    obtain ⟨here, further⟩ := List.forall_mem_cons.mp h
    rw [Signature.headsIn]
    split
    · rename_i e
      subst e
      exact (TypeParam.ofTrees_readsBack children (here.1.allChildren rfl)).bind fun _ typeParams =>
        Signature.headsIn_readsBack rest further _ ⟨typeParams, reads.2⟩
    · split
      · rename_i e
        subst e
        exact (Param.ofTrees_readsBack children (here.1.allChildren rfl) here.1.params).bind fun _ params =>
          Signature.headsIn_readsBack rest further _ ⟨reads.1, params⟩
      · exact Signature.headsIn_readsBack rest further heads reads

theorem Signature.callIn_readsBack (label : Label) (loc : Loc) : ∀ ts : List Tree, AllLegible ts →
    Gives Signature.ReadsBack (Signature.callIn label loc ts)
  | [], _ => .error
  | .leaf .. :: rest, h => Signature.callIn_readsBack label loc rest (List.forall_mem_cons.mp h).2
  | .node inner _ children :: rest, h => by
    obtain ⟨here, further⟩ := List.forall_mem_cons.mp h
    rw [Signature.callIn]
    split
    · rename_i e
      subst e
      have all := here.1.allChildren rfl
      exact Signature.ofParts_readsBack (Signature.headsIn_readsBack children all ([], []) ⟨nofun, nofun⟩)
        (TypeExpr.ascriptionIn_readsBack children all)
    · exact Signature.callIn_readsBack label loc rest further

theorem TypeMember.ofTree_readsBack : ∀ t : Tree, t.Legible → Gives TypeMember.ReadsBack (TypeMember.ofTree t)
  | .leaf .., _ => .error
  | .node label loc children, h => by
    unfold TypeMember.ofTree
    split
    · have all := h.allChildren rfl
      cases h with
      | node _ inside others =>
        exact (propertyName_gives all.legible (inside _ rfl) (by decide) others _ loc).bind fun _ named =>
          (TypeExpr.ascriptionIn_readsBack children all).bind fun _ typed => .ok (TypeMember.readsBack_property named typed)
    · have all := h.allChildren rfl
      cases h with
      | node _ inside others =>
        exact (propertyName_gives all.legible (inside _ rfl) (by decide) others _ loc).bind fun _ named =>
          (Signature.callIn_readsBack _ loc children all).bind fun _ reads => .ok (TypeMember.readsBack_method named reads)
    · have all := h.allChildren rfl
      exact (Signature.ofParts_readsBack (Signature.headsIn_readsBack children all ([], []) ⟨nofun, nofun⟩)
        (TypeExpr.ascriptionIn_readsBack children all)).bind fun _ reads => .ok (TypeMember.readsBack_call reads)
    · have all := h.allChildren rfl
      exact (Signature.ofParts_readsBack (Signature.headsIn_readsBack children all ([], []) ⟨nofun, nofun⟩)
        (TypeExpr.ascriptionIn_readsBack children all)).bind fun _ reads => .ok (TypeMember.readsBack_construct reads)
    · have all := h.allChildren rfl
      exact TypeMember.indexOfParts_readsBack (fun name e => (name_gives all.legible _ loc name e).2)
        (TypeExpr.keyTypeIn?_readsBack children all) (TypeExpr.ascriptionIn_readsBack children all)
    · exact .error

theorem TypeMember.ofTrees_readsBack : ∀ ts : List Tree, AllLegible ts →
    Gives (fun ms => ∀ m ∈ ms, TypeMember.ReadsBack m) (TypeMember.ofTrees ts)
  | [], _ => .ok nofun
  | .leaf .. :: rest, h => TypeMember.ofTrees_readsBack rest (List.forall_mem_cons.mp h).2
  | .node label loc children :: rest, h =>
    have ⟨here, further⟩ := List.forall_mem_cons.mp h
    (TypeMember.ofTree_readsBack (.node label loc children) here.1).bind fun _ first =>
      (TypeMember.ofTrees_readsBack rest further).bind fun _ more => .ok (List.forall_mem_cons.mpr ⟨first, more⟩)

end

end Typings
