import Typings.Proofs.Declaration.Rows
/-!
# Reading types

The phrases of names, types and parameters mean what `Means` says, one lemma for each of them.

* `entity_reads`, `propertyName_reads`, `accessibility_reads`   the names in a row;
* `ascription_reads`                     the type behind a colon;
* `FunctionParts.reads`                  function and constructor types.
-/

namespace Typings
open Typings.Tree

section
open Terminal Nonterminal Slot
variable {loc : Loc} {ts : List Tree} {ls : List Token}

/-! ## Names -/

theorem entity_reads {a : List Tree} (none : child? entityName a = none)
    (h : Shows entityName ts ls) (label : Label) (loc : Loc) (rest : List Tree) :
    ls = [] ∧ ∃ name, entity label loc (a ++ (ts ++ rest)) = .ok name := by
  obtain ⟨loc', cs, rfl, noLiterals⟩ := h
  refine ⟨noLiterals, dotted cs, ?_⟩
  rw [entity, child, child?_append, none]
  rfl

theorem entityName_means (h : Row false [NAME, optional moreSegments] ts ls) :
    Means entityName [.node (.phrase entityName) loc ts] ls := by
  obtain ⟨t, t', l, l', rfl, rfl, name, further⟩ := h.once_inv
  obtain ⟨rfl, -⟩ := name.word rfl (by decide)
  have none : l' = [] := by
    rcases further.lastOptional_inv with more | more
    · exact more.1
    · exact more.2
  exact ⟨loc, _, rfl, none⟩

theorem propertyName_means
    (h : Row false [NAME] ts ls ∨ Row false [STRING] ts ls ∨ Row false [NUMERAL] ts ls) :
    Means propertyName (Derivation.shown propertyName loc ts) ls := by
  rcases h with h | h | h
  · obtain ⟨rfl, text, loc', rfl⟩ := h.last_inv.word rfl (by decide)
    exact ⟨_, text, loc', rfl, .inl rfl, .ok trivial⟩
  · obtain ⟨token, rfl, rfl⟩ := h.last_inv.string
    exact ⟨_, _, _, rfl, .inr (.inl rfl), .literal token⟩
  · obtain ⟨rfl, text, loc', rfl⟩ := h.last_inv.word rfl (by decide)
    exact ⟨_, text, loc', rfl, .inr (.inr rfl), .ok trivial⟩

theorem child?_propertyName (h : Shows propertyName ts ls) (n : Nonterminal) :
    child? n ts = none := by
  obtain ⟨kind, text, loc', rfl, _⟩ := h
  rfl

/-- the name of a member comes behind nothing that can be one -/
theorem propertyName_reads {a : List Tree} (nameless : Nameless a) (h : Shows propertyName ts ls)
    (label : Label) (loc : Loc) (rest : List Tree) :
    Reads ls (fun _ => True) (Tree.propertyName label loc (a ++ (ts ++ rest))) := by
  obtain ⟨kind, text, loc', rfl, isName, reads⟩ := h
  rw [propertyName_append nameless]
  show Reads ls _ (Tree.propertyName label loc (.leaf (some kind) text loc' :: rest))
  rw [Tree.propertyName, if_pos]
  · exact reads
  · rcases isName with rfl | rfl | rfl
    · exact .inl rfl
    · exact .inr (.inl rfl)
    · exact .inr (.inr rfl)

theorem accessibility_means
    (h : Row false [PUBLIC] ts ls ∨ Row false [PRIVATE] ts ls ∨ Row false [PROTECTED] ts ls) :
    Means Nonterminal.accessibility [.node (.phrase Nonterminal.accessibility) loc ts] ls := by
  have word : ∃ k text loc', ls = [] ∧ ts = [.leaf (some k) text loc'] := by
    rcases h with h | h | h
    all_goals
      obtain ⟨none, text, loc', one⟩ := h.last_inv.word rfl (by decide)
      exact ⟨_, text, loc', none, one⟩
  obtain ⟨k, text, loc', rfl, rfl⟩ := word
  exact ⟨loc, _, rfl, rfl, text, rfl⟩

/-- the accessibility is the first part, if it is there at all -/
theorem accessibility_reads (h : Perhaps (Shows Nonterminal.accessibility) ts ls) {rest : List Tree}
    (none : child? Nonterminal.accessibility rest = none) :
    ls = [] ∧ ∃ a, Tree.accessibility (ts ++ rest) = .ok a := by
  rcases h with ⟨loc', cs, rfl, noLiterals, text, head⟩ | ⟨rfl, noLiterals⟩
  · refine ⟨noLiterals, some text, ?_⟩
    rw [Tree.accessibility, child?_append, child?, if_pos rfl]
    show (headText _ loc' cs).map some = _
    rw [head]
    rfl
  · refine ⟨noLiterals, Option.none, ?_⟩
    rw [Tree.accessibility, List.nil_append, none]

/-! ## Types -/

theorem type_passes (h : Means typeExpr ts ls) :
    Passes (Builds TypeExpr.ofTrees TypeExpr.Sorted) ts ls := by
  obtain ⟨label, loc', cs, rfl, _, reads⟩ := h
  exact Passes.one (fun rest => by rw [TypeExpr.ofTrees]) reads

theorem reference_passes (h : Means typeReference ts ls) :
    Passes (Builds TypeExpr.ofTrees TypeExpr.SortedReference) ts ls := by
  obtain ⟨loc', cs, rfl, reads⟩ := h
  exact Passes.one (fun rest => by rw [TypeExpr.ofTrees]) reads

theorem no_types {P : TypeExpr → Prop} : Builds TypeExpr.ofTrees P [] [] := by
  unfold Builds
  rw [TypeExpr.ofTrees]
  exact .ok fun a h => absurd h List.not_mem_nil

theorem predefinedType_means (h : Row false [ANY] ts ls ∨ Row false [NUMBER] ts ls ∨
    Row false [BOOLEAN] ts ls ∨ Row false [STRINGTYPE] ts ls ∨ Row false [VOID] ts ls) :
    Means predefinedType [.node (.phrase predefinedType) loc ts] ls := by
  have word : ∃ k text loc', ls = [] ∧ ts = [.leaf (some k) text loc'] := by
    rcases h with h | h | h | h | h
    all_goals
      obtain ⟨none, text, loc', one⟩ := h.last_inv.word rfl (by decide)
      exact ⟨_, text, loc', none, one⟩
  obtain ⟨k, text, loc', rfl, rfl⟩ := word
  refine ⟨_, loc, _, rfl, rfl, ?_⟩
  rw [TypeExpr.ofTree]
  exact .ok (.predefined loc text)

theorem typeQuery_means (h : Row false [entityName] ts ls) :
    Means typeQuery [.node (.phrase typeQuery) loc ts] ls := by
  obtain ⟨rfl, name, found⟩ := entity_reads (a := []) rfl h.last_inv (.phrase typeQuery) loc []
  rw [List.append_nil, List.nil_append] at found
  refine ⟨_, loc, _, rfl, rfl, ?_⟩
  rw [TypeExpr.ofTree, found]
  exact .ok (.query loc name)

theorem arguments_read (h : Perhaps (Shows typeArguments) ts ls) :
    Reads ls (fun l => ∀ t ∈ l, TypeExpr.Sorted t) (TypeExpr.argumentsIn ts) := by
  rcases h with ⟨loc', cs, rfl, reads⟩ | ⟨rfl, rfl⟩
  · rw [TypeExpr.argumentsIn, if_pos rfl]
    exact reads
  · rw [TypeExpr.argumentsIn]
    exact .ok fun a h => absurd h List.not_mem_nil

theorem typeReference_means (h : Row false [entityName, optional typeArguments] ts ls) :
    Means typeReference [.node (.phrase typeReference) loc ts] ls := by
  obtain ⟨t, t', l, l', rfl, rfl, entity, further⟩ := h.once_inv
  obtain ⟨rfl, name, found⟩ := entity_reads (a := []) rfl entity (.phrase typeReference) loc t'
  rw [List.nil_append] at found
  have args := arguments_read further.lastOptional_inv
  have same : TypeExpr.argumentsIn (t ++ t') = TypeExpr.argumentsIn t' := by
    obtain ⟨loc', cs, rfl, _⟩ := entity
    rw [List.singleton_append, TypeExpr.argumentsIn, if_neg (by decide)]
  refine ⟨loc, _, rfl, ?_⟩
  show Reads l' _ (TypeExpr.ofTree _)
  rw [TypeExpr.ofTree, found, same]
  exact args.map fun args sorted => ⟨.reference loc name sorted, trivial⟩

theorem typeArguments_means (h : Row false [typeExpr, optional moreTypeArguments] ts ls) :
    Means typeArguments [.node (.phrase typeArguments) loc ts] ls :=
  ⟨loc, ts, rfl, (h.passes_more (fun _ _ => type_passes) rfl).alone no_types⟩

theorem references_read (h : Row false [typeReference, optional moreReferences] ts ls) :
    Builds TypeExpr.ofTrees TypeExpr.SortedReference ts ls :=
  (h.passes_more (fun _ _ => reference_passes) rfl).alone no_types

theorem arrayType_means (h : Row false [primaryType] ts ls) :
    Means arrayType [.node (.phrase arrayType) loc ts] ls := by
  obtain ⟨label, loc', cs, rfl, isType, reads⟩ := h.last_inv
  refine ⟨_, loc, _, rfl, rfl, ?_⟩
  rw [TypeExpr.ofTree, TypeExpr.firstIn?]
  exact reads.map fun element sorted => .array loc sorted

theorem ascription_means (h : Row false [typeExpr] ts ls) :
    Means ascription [.node (.phrase ascription) loc ts] ls := by
  obtain ⟨label, loc', cs, rfl, isType, reads⟩ := h.last_inv
  refine ⟨loc, _, rfl, _, ?_, reads⟩
  rw [TypeExpr.firstIn?]

/-- the type behind a colon, if there is one -/
theorem ascription_reads (h : Perhaps (Shows ascription) ts ls) :
    Reads ls (fun r => ∀ t ∈ r, TypeExpr.Sorted t) (TypeExpr.ascriptionIn ts) := by
  rcases h with ⟨loc', cs, rfl, r, first, reads⟩ | ⟨rfl, rfl⟩
  · rw [TypeExpr.ascriptionIn, if_pos rfl, first]
    refine reads.map fun t sorted => ?_
    rintro _ ⟨⟩
    exact sorted
  · rw [TypeExpr.ascriptionIn]
    refine .ok ?_
    rintro _ ⟨⟩

theorem isType_of_objectType (h : Means objectType ts ls) : Means primaryType ts ls := by
  obtain ⟨loc', cs, rfl, reads⟩ := h
  refine ⟨_, loc', cs, rfl, rfl, ?_⟩
  rw [TypeExpr.ofTree]
  exact reads.map fun members sorted => .object loc' sorted

theorem isType_of_typeReference (h : Means typeReference ts ls) : Means primaryType ts ls := by
  obtain ⟨loc', cs, rfl, reads⟩ := h
  exact ⟨_, loc', cs, rfl, rfl, reads.mono fun _ sorted => sorted.1⟩

theorem primaryType_means (h : Row false [predefinedType] ts ls ∨ Row false [typeReference] ts ls ∨
    Row false [typeQuery] ts ls ∨ Row false [objectType] ts ls ∨ Row false [arrayType] ts ls) :
    Means primaryType (Derivation.shown primaryType loc ts) ls := by
  have node : Means primaryType ts ls := by
    rcases h with h | h | h | h | h
    · exact h.last_inv
    · exact isType_of_typeReference h.last_inv
    · exact h.last_inv
    · exact isType_of_objectType h.last_inv
    · exact h.last_inv
  rw [Means] at node ⊢
  exact node.shown rfl

theorem typeExpr_means (h : Row false [primaryType] ts ls ∨ Row false [functionType] ts ls ∨
    Row false [constructorType] ts ls) :
    Means typeExpr (Derivation.shown typeExpr loc ts) ls := by
  have node : Means typeExpr ts ls := by
    rcases h with h | h | h
    all_goals exact h.last_inv
  rw [Means] at node ⊢
  exact node.shown rfl

/-! ## Parameters -/

theorem no_params {P : Param → Prop} : Builds Param.ofTrees P [] [] := by
  unfold Builds
  rw [Param.ofTrees]
  exact .ok fun a h => absurd h List.not_mem_nil

theorem no_typeParams {P : TypeParam → Prop} : Builds TypeParam.ofTrees P [] [] := by
  unfold Builds
  rw [TypeParam.ofTrees]
  exact .ok fun a h => absurd h List.not_mem_nil

theorem restParameter_means (h : Row false [NAME, optional ascription] ts ls) :
    Means restParameter [.node (.phrase restParameter) loc ts] ls := by
  obtain ⟨t, t', l, l', rfl, rfl, here, further⟩ := h.once_inv
  obtain ⟨rfl, name, found⟩ := here.name (a := []) rfl (.phrase restParameter) loc t'
  rw [List.nil_append] at found
  have type := ascription_reads further.lastOptional_inv
  have same := TypeExpr.ascriptionIn_append (here.child?_word Nonterminal.ascription) t'
  have step : ∀ rest, Param.ofTrees (.node (.phrase restParameter) loc (t ++ t') :: rest) =
      (TypeExpr.ascriptionIn t' >>= fun type => .ok (.rest loc name type)) >>= fun p =>
        Param.ofTrees rest >>= fun ps => .ok (p :: ps) := by
    intro rest
    rw [Param.ofTrees, found, same, bind_assoc]
    rfl
  exact Passes.one step (type.map fun type sorted => .rest loc name sorted)

theorem parameter_means
    (h : Row false [optional Nonterminal.accessibility, NAME, optional QMARK, optional ascription]
      ts ls) : Means parameter [.node (.phrase parameter) loc ts] ls := by
  obtain ⟨ta, ts₁, la, ls₁, rfl, rfl, access, h₁⟩ := h.optional_inv
  obtain ⟨tn, ts₂, ln, ls₂, rfl, rfl, here, h₂⟩ := h₁.once_inv
  obtain ⟨tq, tt, lq, lt, rfl, rfl, mark, h₃⟩ := h₂.optional_inv
  have type := h₃.lastOptional_inv
  obtain ⟨rfl, name, found⟩ :=
    here.name (access.token?_phrase NAME) (.phrase parameter) loc (tq ++ tt)
  obtain ⟨rfl, -⟩ := mark.word rfl (by decide)
  have quiet : child? Nonterminal.accessibility (tn ++ (tq ++ tt)) = none := by
    rw [child?_append, child?_append, here.child?_word, mark.child?_word, type.child?_ne (by decide)]
    rfl
  obtain ⟨rfl, a, accessed⟩ := accessibility_reads access quiet
  have same : TypeExpr.ascriptionIn (ta ++ (tn ++ (tq ++ tt))) = TypeExpr.ascriptionIn tt := by
    rw [TypeExpr.ascriptionIn_append (access.child?_ne (by decide)),
      TypeExpr.ascriptionIn_append (here.child?_word _),
      TypeExpr.ascriptionIn_append (mark.child?_word _)]
  have step : ∀ rest, Param.ofTrees (.node (.phrase parameter) loc (ta ++ (tn ++ (tq ++ tt))) :: rest) =
      (TypeExpr.ascriptionIn tt >>= fun type =>
        .ok (.single loc name type (hasToken QMARK (ta ++ (tn ++ (tq ++ tt)))) a)) >>= fun p =>
          Param.ofTrees rest >>= fun ps => .ok (p :: ps) := by
    intro rest
    rw [Param.ofTrees, found, same, bind_assoc, accessed]
    rfl
  exact Passes.one step ((ascription_reads type).map fun type sorted => .single loc name _ a sorted)

theorem anyParameter_means (h : Row false [parameter] ts ls ∨ Row false [restParameter] ts ls) :
    Means anyParameter ts ls := by
  rcases h with h | h
  · exact h.last_inv
  · exact h.last_inv

theorem parameterList_means (h : Row false [anyParameter, optional moreParameters] ts ls) :
    Means parameterList [.node (.phrase parameterList) loc ts] ls :=
  ⟨loc, ts, rfl, (h.passes_more (fun _ _ h => h) rfl).alone no_params⟩

theorem typeParameter_means (h : Row false [NAME, typeExpr] ts ls ∨ Row false [NAME] ts ls) :
    Means typeParameter [.node (.phrase typeParameter) loc ts] ls := by
  rcases h with h | h
  · obtain ⟨t, t', l, l', rfl, rfl, here, further⟩ := h.once_inv
    obtain ⟨rfl, text, loc', rfl⟩ := here.word rfl (by decide)
    obtain ⟨label, loc'', cs, rfl, _, reads⟩ := further.last_inv
    have first : TypeExpr.firstIn? [.leaf (some NAME) text loc', .node label loc'' cs] =
        some (TypeExpr.ofTree (.node label loc'' cs)) := by
      rw [TypeExpr.firstIn?, TypeExpr.firstIn?]
    have step : ∀ rest, TypeParam.ofTrees (.node (.phrase typeParameter) loc
        [.leaf (some NAME) text loc', .node label loc'' cs] :: rest) =
          (TypeExpr.ofTree (.node label loc'' cs) >>= fun t => .ok (.mk text (some t))) >>= fun p =>
            TypeParam.ofTrees rest >>= fun ps => .ok (p :: ps) := by
      intro rest
      rw [TypeParam.ofTrees, if_pos rfl, first, bind_assoc]
      rfl
    refine Passes.one step (reads.map fun t sorted => .mk text ?_)
    rintro _ ⟨⟩
    exact sorted
  · obtain ⟨rfl, text, loc', rfl⟩ := h.last_inv.word rfl (by decide)
    have first : TypeExpr.firstIn? [.leaf (some NAME) text loc'] = none := by
      rw [TypeExpr.firstIn?, TypeExpr.firstIn?]
    have step : ∀ rest, TypeParam.ofTrees (.node (.phrase typeParameter) loc
        [.leaf (some NAME) text loc'] :: rest) =
          (.ok (.mk text none) : Except BuildError TypeParam) >>= fun p =>
            TypeParam.ofTrees rest >>= fun ps => .ok (p :: ps) := by
      intro rest
      rw [TypeParam.ofTrees, if_pos rfl, first]
      rfl
    refine Passes.one step (.ok (.mk text ?_))
    rintro _ ⟨⟩

theorem typeParameters_means (h : Row false [typeParameter, optional moreTypeParameters] ts ls) :
    Means typeParameters [.node (.phrase typeParameters) loc ts] ls :=
  ⟨loc, ts, rfl, (h.passes_more (fun _ _ h => h) rfl).alone no_typeParams⟩

/-! ## Function types -/

namespace FunctionParts

/-- the parts of a function type before its result -/
structure Heads (parts : FunctionParts) : Prop where
  typeParams : ∀ p ∈ parts.typeParams, p.Sorted
  params : ∀ p ∈ parts.params, p.Sorted

theorem type_bind {α : Type} (label : Label) (loc : Loc)
    (make : List TypeParam → List Param → TypeExpr → TypeExpr) (r : Except BuildError α)
    (k : α → Except BuildError FunctionParts) :
    type label loc make (r >>= k) = r >>= fun a => type label loc make (k a) := by
  cases r with
  | error e => rfl
  | ok a => rfl

/-- a row completes every function type with the parts before it -/
def Completes (label : Label) (loc : Loc)
    (make : List TypeParam → List Param → TypeExpr → TypeExpr) (ts : List Tree) (ls : List Token) :
    Prop := ∀ parts, Heads parts → Reads ls TypeExpr.Sorted (type label loc make (ofTrees parts ts))

variable {label : Label} {make : List TypeParam → List Param → TypeExpr → TypeExpr}

theorem passes_typeParameters (h : Perhaps (Shows typeParameters) ts ls) :
    Passes (Completes label loc make) ts ls := by
  rcases h with ⟨loc', cs, rfl, reads⟩ | ⟨rfl, rfl⟩
  · intro rest more good parts heads
    rw [List.singleton_append, ofTrees, if_pos rfl, type_bind]
    exact reads.bind fun typeParams h => good _ ⟨h, heads.params⟩
  · exact Passes.nil

theorem passes_parameterList (h : Perhaps (Shows parameterList) ts ls) :
    Passes (Completes label loc make) ts ls := by
  rcases h with ⟨loc', cs, rfl, reads⟩ | ⟨rfl, rfl⟩
  · intro rest more good parts heads
    rw [List.singleton_append, ofTrees, if_neg (by decide), if_pos rfl, type_bind]
    exact reads.bind fun params h => good _ ⟨heads.typeParams, h⟩
  · exact Passes.nil

/-- function and constructor types -/
theorem reads
    (h : Row false [optional typeParameters, optional parameterList, typeExpr] ts ls)
    (make_sorted : ∀ typeParams params result, (∀ p ∈ typeParams, p.Sorted) →
      (∀ p ∈ params, p.Sorted) → result.Sorted → (make typeParams params result).Sorted) :
    Reads ls TypeExpr.Sorted (type label loc make (ofTrees {} ts)) := by
  obtain ⟨tp, ts₁, lp, ls₁, rfl, rfl, typeParams, h₁⟩ := h.optional_inv
  obtain ⟨tq, tr, lq, lr, rfl, rfl, params, h₂⟩ := h₁.optional_inv
  obtain ⟨label', loc', cs, rfl, isType, read⟩ := h₂.last_inv
  have last : Completes label loc make [.node label' loc' cs] lr := by
    intro parts heads
    have ne : label' ≠ .phrase typeParameters := by
      rintro rfl
      cases isType
    have ne' : label' ≠ .phrase parameterList := by
      rintro rfl
      cases isType
    rw [ofTrees, if_neg ne, if_neg ne', ofTrees]
    exact read.map fun t sorted => make_sorted _ _ t heads.typeParams heads.params sorted
  have whole := passes_typeParameters typeParams _ _ (passes_parameterList params _ _ last)
  exact whole {} ⟨fun p h => absurd h List.not_mem_nil, fun p h => absurd h List.not_mem_nil⟩

end FunctionParts

theorem functionType_means
    (h : Row false [optional typeParameters, optional parameterList, typeExpr] ts ls) :
    Means functionType [.node (.phrase functionType) loc ts] ls := by
  refine ⟨_, loc, ts, rfl, rfl, ?_⟩
  rw [TypeExpr.ofTree]
  exact FunctionParts.reads h fun _ _ _ => .function loc

theorem constructorType_means
    (h : Row false [optional typeParameters, optional parameterList, typeExpr] ts ls) :
    Means constructorType [.node (.phrase constructorType) loc ts] ls := by
  refine ⟨_, loc, ts, rfl, rfl, ?_⟩
  rw [TypeExpr.ofTree]
  exact FunctionParts.reads h fun _ _ _ => .construct loc

end

end Typings
