import Typings.Proofs.Model.ModulePath
import Typings.Token.Pattern
/-!
# Well-formed classes of the model

* `Text.IsDotted`             one or more names with dots between them;
* `TypeRef.WellFormed`        each name in a type is dotted and not `void`, and a predefined type has no
                              arguments;
* `Class.WellFormed`          the names and types of a class are well formed, and a module around it has a
                              name;
* `TypeRef.wellFormed_of_names`, `Method.ofSignature_wellFormed`, `Class.within_wellFormed`
                              what is made of well-formed parts.
-/

namespace Typings

/-! ## Names -/

namespace Text

/-- one or more names with dots between them -/
def IsDotted (t : Text) : Prop :=
  ∃ names : List Text, names ≠ [] ∧ (∀ n ∈ names, n.isName = true) ∧ t = join "." names

theorem isDotted_of_isName {t : Text} (h : t.isName = true) : IsDotted t :=
  ⟨[t], List.cons_ne_nil _ _, List.forall_mem_singleton.mpr h, (join_singleton "." t).symm⟩

/-- there is no dot in a name -/
theorem dot_not_mem_of_isName {t : Text} (h : t.isName = true) : CodePoint.scalar '.' ∉ t := by
  cases t with
  | nil => exact List.not_mem_nil
  | cons x t =>
    rw [isName, Bool.and_eq_true, List.all_eq_true] at h
    intro dot
    rcases List.mem_cons.mp dot with rfl | dot
    · exact absurd h.1 (by decide)
    · exact absurd (h.2 _ dot) (by decide)

/-- a name is not put together of several ones -/
theorem eq_of_join {first : Text} {more : List Text} {t : Text} (h : join "." (first :: more) = t)
    (name : t.isName = true) : first = t := by
  cases more with
  | nil => rwa [join_singleton] at h
  | cons next more =>
    rw [join_cons "." first (List.cons_ne_nil next more)] at h
    refine absurd ?_ (dot_not_mem_of_isName name)
    rw [← h]
    exact List.mem_append_left _ (List.mem_append_right _ List.mem_cons_self)

end Text

/-! ## Types -/

/-- the names of the predefined types of the model -/
def TypeRef.predefinedNames : List Text := ["any", "number", "boolean", "string"]

/-- a type whose names are dotted names other than `void`, those of predefined types without arguments -/
inductive TypeRef.WellFormed : TypeRef → Prop
  | mk {name : Text} {args : List TypeRef} (dotted : name.IsDotted) (notVoid : name ≠ "void")
      (bare : name ∈ predefinedNames → args = []) (inner : ∀ t ∈ args, WellFormed t) :
      WellFormed (.mk name args)

namespace TypeRef

theorem plain_wellFormed {name : Text} (isName : name.isName = true) (notVoid : name ≠ "void") :
    (plain name).WellFormed :=
  .mk (Text.isDotted_of_isName isName) notVoid (fun _ => rfl) fun _ h => absurd h List.not_mem_nil

theorem predefined_wellFormed : ∀ entry ∈ predefined, entry.2.WellFormed := by
  simp only [predefined, List.forall_mem_cons]
  exact ⟨plain_wellFormed (by decide) (by decide), plain_wellFormed (by decide) (by decide),
    plain_wellFormed (by decide) (by decide), plain_wellFormed (by decide) (by decide),
    fun _ h => absurd h List.not_mem_nil⟩

theorem arrayOf_wellFormed {element : Option TypeRef} (h : ∀ t ∈ element, t.WellFormed) :
    (arrayOf element).WellFormed :=
  .mk (Text.isDotted_of_isName (by decide)) (by decide) (fun e => absurd e (by decide))
    fun t ht => h t (Option.mem_toList.mp ht)

/-- a reference whose first name is not that of a predefined type -/
theorem wellFormed_of_names {first : Text} {more : List Text} (isName : ∀ n ∈ first :: more, n.isName = true)
    (other : first ∉ ("void" : Text) :: predefinedNames) {args : List TypeRef}
    (inner : ∀ t ∈ args, t.WellFormed) : (mk (Text.join "." (first :: more)) args).WellFormed := by
  have reserved : ∀ t ∈ ("void" : Text) :: predefinedNames, t.isName = true := by decide
  have ne : ∀ t ∈ ("void" : Text) :: predefinedNames, Text.join "." (first :: more) ≠ t := by
    intro t ht joined
    exact other (Text.eq_of_join joined (reserved t ht) ▸ ht)
  exact .mk ⟨first :: more, List.cons_ne_nil _ _, isName, rfl⟩ (ne "void" List.mem_cons_self)
    (fun mem => absurd rfl (ne _ (List.mem_cons_of_mem _ mem))) inner

theorem ofTypes_wellFormed {ts : List TypeExpr} (h : ∀ t ∈ ts, ∀ r ∈ ofType? t, r.WellFormed) :
    ∀ r ∈ ofTypes ts, r.WellFormed := by
  induction ts with
  | nil => exact fun _ h => absurd h List.not_mem_nil
  | cons t ts ih =>
    obtain ⟨here, further⟩ := List.forall_mem_cons.mp h
    exact List.forall_mem_append.mpr ⟨fun r hr => here r (Option.mem_toList.mp hr), ih further⟩

end TypeRef

/-! ## Methods -/

structure Parameter.WellFormed (p : Parameter) : Prop where
  name : p.name.isName = true
  type : p.type.WellFormed

structure Method.WellFormed (m : Method) : Prop where
  params : ∀ p ∈ m.params, p.WellFormed
  rest : ∀ p ∈ m.rest, p.WellFormed
  result : ∀ t ∈ m.result, t.WellFormed

theorem TypeRef.ofParam_wellFormed {t : Option TypeExpr} (h : ∀ r ∈ ofOption? t, r.WellFormed) :
    (ofParam t).WellFormed := by
  unfold ofParam
  cases type : ofOption? t with
  | none => exact plain_wellFormed (by decide) (by decide)
  | some r => exact h r type

theorem Method.ofSignature_wellFormed {name : Text} {params : List Param} {result : Option TypeExpr}
    (hp : ∀ p ∈ params, p.lower.WellFormed) (hr : ∀ r ∈ TypeRef.ofOption? result, r.WellFormed) :
    (ofSignature name params result).WellFormed where
  params := by
    intro _ mem
    obtain ⟨p, kept, rfl⟩ := List.mem_map.mp mem
    exact hp p (List.mem_filter.mp kept).1
  rest := by
    intro _ mem
    obtain ⟨p, found, rfl⟩ := Option.map_eq_some_iff.mp mem
    exact hp p (List.mem_of_find?_eq_some found)
  result := hr

/-! ## Classes -/

/-- a kind is told by its word and its constructor -/
theorem ClassKind.eq_of_word {k l : ClassKind} (word : k.word = l.word) (initializer : k.initializer? = l.initializer?) :
    k = l := by
  have ne : "interface" ≠ "class" := by decide
  cases k with
  | interface =>
    cases l with
    | interface => rfl
    | withConstructor => exact absurd word ne
  | withConstructor =>
    cases l with
    | interface => exact absurd word.symm ne
    | withConstructor => exact congrArg ClassKind.withConstructor initializer

structure Class.WellFormed (c : Class) : Prop where
  name : c.name.isName = true
  moduleName : c.moduleName ≠ some []
  interface : c.kind = .interface → c.kind.initializer? = none
  exported : c.kind ≠ .interface → c.exported = true
  initializer : ∀ m ∈ c.kind.initializer?, m.name = "constructor" ∧ m.result = none ∧ m.WellFormed
  methods : ∀ m ∈ c.methods, m.WellFormed

namespace Class

theorem segment_ne_nil {module : Option Text} : ∀ t ∈ segment module, t ≠ [] := by
  rintro t mem rfl
  obtain ⟨_, full⟩ := Option.filter_eq_some_iff.mp (Option.mem_toList.mp mem)
  cases full

theorem modulePath?_ne {names : List Text} (full : ∀ t ∈ names, t ≠ []) : modulePath? names ≠ some [] := by
  rw [modulePath?_eq]
  split
  · exact nofun
  · rename_i some
    exact fun e => Text.join_ne_nil "." some full (Option.some.inj e)

theorem within_wellFormed {c : Class} (h : c.WellFormed) (module : Option Text) :
    (c.within module).WellFormed where
  name := h.name
  moduleName := by
    rw [within_eq]
    exact modulePath?_ne (List.forall_mem_append.mpr ⟨segment_ne_nil, segment_ne_nil⟩)
  interface := h.interface
  exported := h.exported
  initializer := h.initializer
  methods := h.methods

theorem ofInterface_wellFormed {decl : InterfaceDecl} (name : decl.name.isName = true)
    (methods : ∀ m ∈ decl.members, ∀ method ∈ Method.ofMember? m, method.WellFormed) (exported : Bool) :
    (ofInterface decl exported).WellFormed where
  name := name
  moduleName := nofun
  interface _ := rfl
  exported h := absurd rfl h
  initializer _ h := nomatch h
  methods method hm := by
    obtain ⟨m, mem, made⟩ := List.mem_filterMap.mp hm
    exact methods m mem method made

theorem ofClass_wellFormed {name : Text} {members : List ClassMember} (isName : name.isName = true)
    (methods : ∀ m ∈ members, ∀ method ∈ Method.ofClassMember? m, method.WellFormed)
    (initializers : ∀ m ∈ members, ∀ method ∈ Method.ofInitializer? m,
      method.name = "constructor" ∧ method.result = none ∧ method.WellFormed) :
    (ofClass name members).WellFormed where
  name := isName
  moduleName := nofun
  interface h := nomatch h
  exported _ := rfl
  initializer method hm := by
    obtain ⟨m, mem, made⟩ := List.mem_filterMap.mp (List.mem_of_mem_head? hm)
    exact initializers m mem method made
  methods method hm := by
    obtain ⟨m, mem, made⟩ := List.mem_filterMap.mp hm
    exact methods m mem method made

end Class

end Typings
