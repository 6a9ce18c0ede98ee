import Typings.Model.Print
import Typings.Proofs.Model.WellFormed
import Typings.Proofs.Token.Reading
/-!
# The listing of the class model

The lines of classes tell what the classes are.  Names stop at the first code point that is not part of a
name, so a text in front of another shows where it ends, and with that a type, a parameter, a method and a
class are each told from all others.

* `Legible`                                  a value is told by its text, whatever comes behind it;
* `Legible.series`                           values with a separator between neighbours are told together;
* `TypeRef.WellNamed` to `Class.WellNamed`   the names in a value are spelled as names;
* `TypeRef.legible` to `Class.legible`       such a value is legible;
* `Class.eq_of_listing`                      the main result.
-/

namespace Typings

/-! ## What is told by its text -/

/-- two lists with the same front up to the first element without a property -/
theorem eq_of_append {α : Type} {p : α → Prop} {a b r s : List α} (all : ∀ x ∈ a, p x) (all' : ∀ x ∈ b, p x)
    (ends : ∀ x ∈ r.head?, ¬ p x) (ends' : ∀ x ∈ s.head?, ¬ p x) (same : a ++ r = b ++ s) : a = b ∧ r = s := by
  induction a generalizing b with
  | nil =>
    cases b with
    | nil => exact ⟨rfl, same⟩
    | cons y b =>
      obtain rfl : r = y :: (b ++ s) := same
      exact absurd (all' y List.mem_cons_self) (ends y rfl)
  | cons x a ih =>
    cases b with
    | nil =>
      obtain rfl : x :: (a ++ r) = s := same
      exact absurd (all x List.mem_cons_self) (ends' x rfl)
    | cons y b =>
      obtain ⟨rfl, further⟩ := List.cons.inj same
      obtain ⟨rfl, behind⟩ := ih (fun z mem => all z (List.mem_cons_of_mem _ mem))
        (fun z mem => all' z (List.mem_cons_of_mem _ mem)) further
      exact ⟨rfl, behind⟩

theorem not_prefix_of_head {α : Type} {x y : α} {front rest : List α} (ne : x ≠ y) : ¬ x :: front <+: y :: rest :=
  fun h => ne (List.cons_prefix_cons.mp h).1

/-- a value is told by its text from each good one, whatever comes behind the two and ends them -/
def Legible {α : Type} (ends : Text → Prop) (good : α → Prop) (render : α → Text) (x : α) : Prop :=
  ∀ y, good y → ∀ r s, ends r → ends s → render x ++ r = render y ++ s → x = y ∧ r = s

namespace Legible
variable {α : Type} {ends : Text → Prop} {good : α → Prop} {render : α → Text} {sep : Text}

theorem ends_repeated (parted : ∀ y, good y → ∀ t, ends (sep ++ (render y ++ t))) {ys : List α}
    (ysGood : ∀ y ∈ ys, good y) {s : Text} (endsS : ends s) : ends (ys.flatMap (sep ++ render ·) ++ s) := by
  cases ys with
  | nil => exact endsS
  | cons y ys =>
    rw [List.flatMap_cons, List.append_assoc, List.append_assoc]
    exact parted y (ysGood y List.mem_cons_self) _

variable {xs ys : List α} {r s : Text} (parted : ∀ y, good y → ∀ t, ends (sep ++ (render y ++ t)))
  (legible : ∀ x ∈ xs, Legible ends good render x) (xsGood : ∀ x ∈ xs, good x) (ysGood : ∀ y ∈ ys, good y)
  (endsR : ends r) (endsS : ends s) (lastR : ¬ sep <+: r) (lastS : ¬ sep <+: s)
include parted legible xsGood ysGood endsR endsS lastR lastS

/-- values that each have a separator in front of them, up to where no further one follows -/
theorem repeated (same : xs.flatMap (sep ++ render ·) ++ r = ys.flatMap (sep ++ render ·) ++ s) :
    xs = ys ∧ r = s := by
  induction xs generalizing ys with
  | nil =>
    cases ys with
    | nil => exact ⟨rfl, same⟩
    | cons y ys =>
      rw [List.flatMap_nil, List.nil_append, List.flatMap_cons, List.append_assoc, List.append_assoc] at same
      exact absurd ⟨_, same.symm⟩ lastR
  | cons x xs ih =>
    obtain ⟨here, others⟩ := List.forall_mem_cons.mp legible
    obtain ⟨_, othersGood⟩ := List.forall_mem_cons.mp xsGood
    cases ys with
    | nil =>
      rw [List.flatMap_nil, List.nil_append, List.flatMap_cons, List.append_assoc, List.append_assoc] at same
      exact absurd ⟨_, same⟩ lastS
    | cons y ys =>
      obtain ⟨yGood, furtherGood⟩ := List.forall_mem_cons.mp ysGood
      simp only [List.flatMap_cons, List.append_assoc, List.append_cancel_left_eq] at same
      obtain ⟨rfl, further⟩ := here y yGood _ _ (ends_repeated parted othersGood endsR)
        (ends_repeated parted furtherGood endsS) same
      obtain ⟨rfl, behind⟩ := ih others othersGood furtherGood further
      exact ⟨rfl, behind⟩

/-- values with a separator between neighbours, up to where neither a separator nor a value follows -/
theorem series (noneR : ∀ y, good y → ¬ render y <+: r) (noneS : ∀ y, good y → ¬ render y <+: s)
    (same : Text.join sep (xs.map render) ++ r = Text.join sep (ys.map render) ++ s) : xs = ys ∧ r = s := by
  have first : ∀ (z : α) (zs : List α) (t : Text), Text.join sep ((z :: zs).map render) ++ t =
      render z ++ (zs.flatMap (sep ++ render ·) ++ t) := by
    intro z zs t
    rw [List.map_cons, Text.join_cons_flatMap, List.flatMap_map, List.append_assoc]
  cases xs with
  | nil =>
    cases ys with
    | nil => exact ⟨rfl, same⟩
    | cons y ys => exact absurd ⟨_, ((first y ys s).symm.trans same.symm)⟩ (noneR y (ysGood y List.mem_cons_self))
  | cons x xs =>
    cases ys with
    | nil => exact absurd ⟨_, ((first x xs r).symm.trans same)⟩ (noneS x (xsGood x List.mem_cons_self))
    | cons y ys =>
      refine repeated parted legible xsGood ysGood endsR endsS lastR lastS ?_
      rw [List.flatMap_cons, List.flatMap_cons, List.append_assoc, List.append_assoc, List.append_assoc,
        List.append_assoc, ← first, ← first, same]

end Legible

/-! ## Names -/

/-- a code point of a dotted name -/
def CodePoint.isDottedPart (x : CodePoint) : Bool := x.isNamePart || x == '.'

/-- a text that does not make the type in front of it longer, by a part of its name or by arguments -/
def Text.Closed (t : Text) : Prop := ¬ t.Begins fun x => x.isDottedPart || x == '<'

theorem CodePoint.isDottedPart_of_isNamePart {x : CodePoint} (h : x.isNamePart = true) : x.isDottedPart = true := by
  rw [isDottedPart, h, Bool.true_or]

theorem Text.IsDotted.parts {t : Text} (h : t.IsDotted) : ∀ x ∈ t, x.isDottedPart = true := by
  obtain ⟨names, some, isNames, rfl⟩ := h
  obtain ⟨first, more, rfl⟩ := List.exists_cons_of_ne_nil some
  obtain ⟨isFirst, isMore⟩ := List.forall_mem_cons.mp isNames
  rw [join_cons_flatMap]
  refine List.forall_mem_append.mpr
    ⟨fun x mem => CodePoint.isDottedPart_of_isNamePart (isNamePart_of_isName isFirst x mem), fun x mem => ?_⟩
  obtain ⟨name, isOne, mem⟩ := List.mem_flatMap.mp mem
  rcases List.mem_append.mp mem with dot | part
  · obtain rfl := List.mem_singleton.mp dot
    rfl
  · exact CodePoint.isDottedPart_of_isNamePart (isNamePart_of_isName (isMore name isOne) x part)

theorem Text.ne_nil_of_isName {name : Text} (h : name.isName = true) : name ≠ [] := by
  rintro rfl
  cases h

theorem Text.IsDotted.exists_cons {t : Text} (h : t.IsDotted) :
    ∃ x rest, t = x :: rest ∧ x.isDottedPart = true := by
  have parts := h.parts
  obtain ⟨names, some, isNames, rfl⟩ := h
  obtain ⟨x, rest, split⟩ :=
    List.exists_cons_of_ne_nil (join_ne_nil "." some fun n mem => ne_nil_of_isName (isNames n mem))
  exact ⟨x, rest, split, parts x (split ▸ List.mem_cons_self)⟩

/-- a name up to a code point that is no part of it -/
theorem Text.eq_of_isName {name other r s : Text} (isName : name.isName = true) (isOther : other.isName = true)
    (ends : ¬ r.Begins CodePoint.isNamePart) (ends' : ¬ s.Begins CodePoint.isNamePart)
    (same : name ++ r = other ++ s) : name = other ∧ r = s :=
  eq_of_append (isNamePart_of_isName isName) (isNamePart_of_isName isOther)
    (fun x here part => ends ⟨x, here, part⟩) (fun x here part => ends' ⟨x, here, part⟩) same

/-! ## Types -/

/-- each name in a type is dotted -/
inductive TypeRef.WellNamed : TypeRef → Prop
  | mk {name : Text} {args : List TypeRef} (dotted : name.IsDotted) (inner : ∀ t ∈ args, WellNamed t) :
      WellNamed (.mk name args)

namespace TypeRef

theorem renderRest_eq (args : List TypeRef) : renderRest args = args.flatMap (Text.ofString ", " ++ render ·) := by
  induction args with
  | nil => rfl
  | cons arg args ih => rw [renderRest, ih, List.flatMap_cons]

/-- the type arguments in their brackets -/
def renderArgs : List TypeRef → Text
  | [] => []
  | arg :: args => .scalar '<' :: (Text.join ", " ((arg :: args).map render) ++ [.scalar '>'])

theorem render_mk (name : Text) (args : List TypeRef) : render (mk name args) = name ++ renderArgs args := by
  cases args with
  | nil => rw [render, renderArgs, List.append_nil]
  | cons arg args =>
    rw [render, renderArgs, List.map_cons, Text.join_cons_flatMap, List.flatMap_map, renderRest_eq]
    simp [Text.ofString]

/-- what stands behind the name of a type is no part of it -/
theorem renderArgs_ends (args : List TypeRef) {r : Text} (closed : r.Closed) :
    ∀ x ∈ (renderArgs args ++ r).head?, ¬ x.isDottedPart = true := by
  intro x here part
  cases args with
  | nil => exact closed ⟨x, here, Bool.or_eq_true_iff.mpr (.inl part)⟩
  | cons arg args =>
    cases here
    exact absurd part (by decide)

/-- a type begins with a code point of a name -/
theorem WellNamed.not_prefix {t : TypeRef} (h : t.WellNamed) {x : CodePoint} {rest : Text}
    (noPart : x.isDottedPart = false) : ¬ render t <+: x :: rest := by
  obtain ⟨dotted, _⟩ := h
  obtain ⟨y, more, rfl, part⟩ := dotted.exists_cons
  rw [render_mk]
  refine not_prefix_of_head ?_
  rintro rfl
  exact Bool.false_ne_true (noPart.symm.trans part)

theorem legible {t : TypeRef} (h : t.WellNamed) : Legible Text.Closed WellNamed render t := by
  induction h with
  | @mk name args dotted inner ih =>
    rintro _ (@⟨name', args', dotted', inner'⟩) r s closedR closedS same
    rw [render_mk, render_mk, List.append_assoc, List.append_assoc] at same
    obtain ⟨rfl, behind⟩ := eq_of_append dotted.parts dotted'.parts (renderArgs_ends args closedR)
      (renderArgs_ends args' closedS) same
    cases args with
    | nil =>
      cases args' with
      | nil => exact ⟨rfl, behind⟩
      | cons arg' args' =>
        obtain rfl : r = _ := behind
        exact absurd (Text.begins_cons.mpr rfl) closedR
    | cons arg args =>
      cases args' with
      | nil =>
        obtain rfl : _ = s := behind
        exact absurd (Text.begins_cons.mpr rfl) closedS
      | cons arg' args' =>
        simp only [renderArgs, List.cons_append, List.append_assoc, List.nil_append] at behind
        have noComma : ∀ t : Text, ¬ Text.ofString ", " <+: .scalar '>' :: t := fun t => not_prefix_of_head (by decide)
        obtain ⟨args_eq, closed⟩ := Legible.series (fun _ _ _ => Text.not_begins_cons (by decide) _) ih inner inner'
          (Text.not_begins_cons (by decide) _) (Text.not_begins_cons (by decide) _) (noComma r) (noComma s)
          (fun _ named => named.not_prefix (by decide)) (fun _ named => named.not_prefix (by decide)) 
          (List.cons.inj behind).2
        exact ⟨congrArg (mk name) args_eq, (List.cons.inj closed).2⟩

end TypeRef

/-! ## Methods -/

structure Parameter.WellNamed (p : Parameter) : Prop where
  name : p.name.isName = true
  type : p.type.WellNamed

structure Method.WellNamed (m : Method) : Prop where
  name : m.name.isName = true
  params : ∀ p ∈ m.params, p.WellNamed
  rest : ∀ p ∈ m.rest, p.WellNamed
  result : ∀ t ∈ m.result, t.WellNamed

namespace Parameter

theorem legible {p : Parameter} (h : p.WellNamed) : Legible Text.Closed WellNamed render p := by
  rintro ⟨name', type'⟩ ⟨isName', named'⟩ r s closedR closedS same
  obtain ⟨name, type⟩ := p
  obtain ⟨isName, named⟩ := h
  simp only [render, List.append_assoc] at same
  obtain ⟨rfl, behind⟩ := Text.eq_of_isName isName isName' (Text.not_begins_cons (by decide) _)
    (Text.not_begins_cons (by decide) _) same
  obtain ⟨rfl, rest⟩ := TypeRef.legible named type' named' r s closedR closedS 
    ((List.append_right_inj (Text.ofString ": ")).mp behind)
  exact ⟨rfl, rest⟩

/-- a parameter, behind dots if it takes all further arguments -/
def renderMarked (p : Bool × Parameter) : Text := (if p.1 then Text.ofString "..." else []) ++ p.2.render

/-- a marked parameter begins with a code point of a dotted name -/
theorem WellNamed.not_prefix {p : Bool × Parameter} (h : p.2.WellNamed) {x : CodePoint} {rest : Text}
    (noPart : x.isDottedPart = false) : ¬ renderMarked p <+: x :: rest := by
  obtain ⟨y, more, split, part⟩ := (Text.isDotted_of_isName h.name).exists_cons
  have ne : ∀ z : CodePoint, z.isDottedPart = true → z ≠ x := by
    rintro z isPart rfl
    exact Bool.false_ne_true (noPart.symm.trans isPart)
  rw [renderMarked, render, split]
  split
  · exact not_prefix_of_head (ne _ (by decide))
  · exact not_prefix_of_head (ne y part)

/-- no parameter without dots in front of it begins as one with dots does -/
theorem WellNamed.undotted {p : Parameter} (h : p.WellNamed) (r s : Text) :
    p.render ++ r ≠ Text.ofString "..." ++ s := by
  intro same
  obtain ⟨x, rest, split⟩ := List.exists_cons_of_ne_nil (Text.ne_nil_of_isName h.name)
  have dot : x = '.' := by
    rw [render, split] at same
    exact (List.cons.inj same).1
  refine Text.dot_not_mem_of_isName h.name ?_
  rw [split, dot]
  exact List.mem_cons_self

theorem marked_legible {p : Bool × Parameter} (h : p.2.WellNamed) :
    Legible Text.Closed (fun q : Bool × Parameter => q.2.WellNamed) renderMarked p := by
  obtain ⟨mark, p⟩ := p
  rintro ⟨mark', q⟩ named r s closedR closedS same
  cases mark with
  | false =>
    cases mark' with
    | false =>
      obtain ⟨rfl, behind⟩ := legible h q named r s closedR closedS same
      exact ⟨rfl, behind⟩
    | true =>
      simp only [renderMarked, if_true, List.append_assoc] at same
      exact absurd same (h.undotted r _)
  | true =>
    cases mark' with
    | false =>
      simp only [renderMarked, if_true, List.append_assoc] at same
      exact absurd same.symm (named.undotted s _)
    | true =>
      simp only [renderMarked, if_true, List.append_assoc] at same
      obtain ⟨rfl, behind⟩ := legible h q named r s closedR closedS (List.append_cancel_left same)
      exact ⟨rfl, behind⟩

end Parameter

namespace Method

/-- the parameters of a method, each with whether it takes all further arguments -/
def markedParams (m : Method) : List (Bool × Parameter) :=
  m.params.map (Prod.mk false) ++ m.rest.toList.map (Prod.mk true)

/-- the result behind a colon -/
def renderResult : Option TypeRef → Text
  | none => []
  | some t => Text.ofString ": " ++ t.render

theorem render_eq (m : Method) : m.render = m.name ++ (Text.ofString "(" ++
    (Text.join ", " (m.markedParams.map Parameter.renderMarked) ++ (Text.ofString ")" ++ renderResult m.result))) := by
  have marked : m.markedParams.map Parameter.renderMarked =
      m.params.map Parameter.render ++ m.rest.toList.map fun p => Text.ofString "..." ++ p.render := by
    rw [markedParams, List.map_append, List.map_map, List.map_map]
    rfl
  rw [render, marked]
  simp only [List.append_assoc]
  cases m.result <;> rfl

theorem markedParams_wellNamed {m : Method} (h : m.WellNamed) : ∀ p ∈ m.markedParams, p.2.WellNamed := by
  refine List.forall_mem_append.mpr ⟨?_, ?_⟩
  · exact List.forall_mem_map.mpr h.params
  · exact List.forall_mem_map.mpr fun p mem => h.rest p (Option.mem_toList.mp mem)

theorem eq_of_markedParams {m n : Method} (same : m.markedParams = n.markedParams) :
    m.params = n.params ∧ m.rest = n.rest := by
  have unmarked : ∀ ps : List Parameter, ∀ p ∈ ps.map (Prod.mk false), p.1 = false :=
    fun _ => List.forall_mem_map.mpr fun _ _ => rfl
  have marked : ∀ o : Option Parameter, ∀ p ∈ (o.toList.map (Prod.mk true)).head?, ¬ p.1 = false := by
    rintro (_ | _) _ ⟨⟩ e
    exact nomatch e
  obtain ⟨params, rest⟩ :=
    eq_of_append (unmarked m.params) (unmarked n.params) (marked m.rest) (marked n.rest) same
  have unmark : ∀ mark : Bool, ∀ p q : Parameter, (mark, p) = (mark, q) → p = q := fun _ _ _ e => (Prod.mk.inj e).2
  refine ⟨(List.map_inj_right (unmark false)).mp params, ?_⟩
  have lists := (List.map_inj_right (unmark true)).mp rest
  rw [← @Option.head?_toList _ m.rest, lists, Option.head?_toList]

/-- a text that begins a new line, if it is not empty -/
def EndsLine (t : Text) : Prop := ∀ x ∈ t.head?, x = '\n'

theorem EndsLine.closed {t : Text} (h : EndsLine t) : t.Closed := by
  rintro ⟨x, here, part⟩
  rw [h x here] at part
  exact absurd part (by decide)

/-- the result of a method up to the end of its line -/
theorem renderResult_legible {t : Option TypeRef} (h : ∀ r ∈ t, r.WellNamed) :
    Legible EndsLine (fun u => ∀ r ∈ u, r.WellNamed) renderResult t := by
  intro u named r s endsR endsS same
  cases t with
  | none =>
    cases u with
    | none => exact ⟨rfl, same⟩
    | some u =>
      obtain rfl : r = _ := same
      exact absurd (endsR _ rfl) (by decide)
  | some t =>
    cases u with
    | none =>
      obtain rfl : _ = s := same
      exact absurd (endsS _ rfl) (by decide)
    | some u =>
      simp only [renderResult, List.append_assoc] at same
      obtain ⟨rfl, behind⟩ := TypeRef.legible (h t rfl) u (named u rfl) r s endsR.closed endsS.closed
        (List.append_cancel_left same)
      exact ⟨rfl, behind⟩

theorem legible {m : Method} (h : m.WellNamed) : Legible EndsLine WellNamed render m := by
  intro n named r s endsR endsS same
  rw [render_eq, render_eq] at same
  simp only [List.append_assoc] at same
  obtain ⟨name, arguments⟩ := Text.eq_of_isName h.name named.name (Text.not_begins_cons (by decide) _)
    (Text.not_begins_cons (by decide) _) same
  obtain ⟨marked, behind⟩ := Legible.series (fun _ _ _ => Text.not_begins_cons (by decide) _)
    (fun p mem => Parameter.marked_legible (markedParams_wellNamed h p mem)) (markedParams_wellNamed h)
    (markedParams_wellNamed named) (Text.not_begins_cons (by decide) _) (Text.not_begins_cons (by decide) _)
    (not_prefix_of_head (by decide)) (not_prefix_of_head (by decide))
    (fun _ named => Parameter.WellNamed.not_prefix named (by decide))
    (fun _ named => Parameter.WellNamed.not_prefix named (by decide))
    ((List.append_right_inj (Text.ofString "(")).mp arguments)
  obtain ⟨result, ending⟩ := renderResult_legible h.result n.result named.result r s endsR endsS
    ((List.append_right_inj (Text.ofString ")")).mp behind)
  obtain ⟨params, rest⟩ := eq_of_markedParams marked
  obtain ⟨_, _, _, _⟩ := m
  obtain ⟨_, _, _, _⟩ := n
  cases name
  cases params
  cases rest
  cases result
  exact ⟨rfl, ending⟩

end Method

/-! ## Classes -/

/-- the names in a class are spelled as names, except for that of its module, which is some text on one line;
only the constructor is called so -/
structure Class.WellNamed (c : Class) : Prop where
  name : c.name.isName = true
  moduleName : ∀ t ∈ c.moduleName, t ≠ [] ∧ CodePoint.scalar '\n' ∉ t
  initializer : ∀ m ∈ c.kind.initializer?, m.name = "constructor" ∧ m.WellNamed
  methods : ∀ m ∈ c.methods, m.name ≠ "constructor" ∧ m.WellNamed

namespace Class
variable {c d : Class}

/-! ### Headings -/

/-- the words in front of the name of a class -/
def opening (exported : Bool) (word : String) : Text :=
  (if exported then Text.ofString "export " else []) ++ (Text.ofString word ++ Text.ofString " ")

/-- no words in front of a name go on with others -/
theorem opening_unique : ∀ e f : Bool, ∀ v ∈ ["interface", "class"], ∀ w ∈ ["interface", "class"],
    opening e v <+: opening f w → e = f ∧ v = w := by
  decide

theorem word_mem : ∀ k : ClassKind, k.word ∈ ["interface", "class"]
  | .interface => List.mem_cons_self
  | .withConstructor _ => List.mem_cons_of_mem _ List.mem_cons_self

/-- the words do not begin with a blank, as the line of a method does -/
theorem opening_first : ∀ e : Bool, ∀ w ∈ ["interface", "class"],
    opening e w ≠ [] ∧ ∀ x ∈ (opening e w).head?, x ≠ .scalar ' ' := by
  decide

theorem exists_cons_opening (exported : Bool) (k : ClassKind) :
    ∃ x rest, opening exported k.word = x :: rest ∧ x ≠ ' ' := by
  obtain ⟨some, first⟩ := opening_first exported k.word (word_mem k)
  obtain ⟨x, rest, split⟩ := List.exists_cons_of_ne_nil some
  exact ⟨x, rest, split, first x (split ▸ rfl)⟩

/-- the module in front of the name of a class, with the dot between them -/
def modulePart (moduleName : Option Text) : Text := moduleName.elim [] (· ++ Text.ofString ".")

theorem modulePart_inj {o o' : Option Text} (same : modulePart o = modulePart o') : o = o' := by
  have some_ne : ∀ m : Text, modulePart (some m) ≠ [] := fun m =>
    List.append_ne_nil_of_right_ne_nil m (List.cons_ne_nil _ _)
  cases o with
  | none =>
    cases o' with
    | none => rfl
    | some m => exact absurd same.symm (some_ne m)
  | some m =>
    cases o' with
    | none => exact absurd same (some_ne m)
    | some n => exact congrArg some (List.append_cancel_right same)

theorem WellNamed.qualifiedName_eq (h : c.WellNamed) : c.qualifiedName = modulePart c.moduleName ++ c.name := by
  have full := h.moduleName
  unfold qualifiedName
  split
  · rename_i none
    rw [none]
    rfl
  · rename_i empty
    exact absurd rfl (full [] empty).1
  · rename_i some
    rw [some]
    rfl

/-- the name of a class with its module stands on one line -/
theorem WellNamed.qualified_line (h : c.WellNamed) : ∀ x ∈ c.qualifiedName, x ≠ '\n' := by
  rw [h.qualifiedName_eq]
  refine List.forall_mem_append.mpr ⟨?_, ?_⟩
  · cases module : c.moduleName with
    | none => exact fun _ mem => nomatch mem
    | some m =>
      refine List.forall_mem_append.mpr ⟨?_, by decide⟩
      rintro _ mem rfl
      exact (h.moduleName m module).2 mem
  · rintro _ mem rfl
    exact absurd (Text.isNamePart_of_isName h.name _ mem) (by decide)

/-- the last dot parts the name from its module -/
theorem eq_of_qualifiedName (hc : c.WellNamed) (hd : d.WellNamed) (same : c.qualifiedName = d.qualifiedName) :
    c.name = d.name ∧ c.moduleName = d.moduleName := by
  have reversed := congrArg List.reverse same
  rw [hc.qualifiedName_eq, hd.qualifiedName_eq, List.reverse_append, List.reverse_append] at reversed
  have ends : ∀ (o : Option Text), ∀ x ∈ (modulePart o).reverse.head?, ¬ x.isNamePart = true := by
    intro o x here part
    cases o with
    | none => cases here
    | some m =>
      rw [modulePart, Option.elim_some, List.reverse_append] at here
      cases here
      exact absurd part (by decide)
  have parts : ∀ {name : Text}, name.isName = true → ∀ x ∈ name.reverse, x.isNamePart = true :=
    fun isName x mem => Text.isNamePart_of_isName isName x (List.mem_reverse.mp mem)
  obtain ⟨name, module⟩ := eq_of_append (parts hc.name) (parts hd.name) (ends _) (ends _) reversed
  exact ⟨List.reverse_inj.mp name, modulePart_inj (List.reverse_inj.mp module)⟩

theorem heading_eq (c : Class) : c.heading = opening c.exported c.kind.word ++ c.qualifiedName := by
  rw [heading, opening]
  simp only [List.append_assoc]

/-! ### Lines -/

/-- the constructor and the methods below a heading -/
def body (c : Class) : List Method := c.kind.initializer?.toList ++ c.methods

theorem WellNamed.body (h : c.WellNamed) : ∀ m ∈ c.body, m.WellNamed :=
  List.forall_mem_append.mpr
    ⟨fun m mem => (h.initializer m (Option.mem_toList.mp mem)).2, fun m mem => (h.methods m mem).2⟩

theorem eq_of_body (hc : c.WellNamed) (hd : d.WellNamed) (same : c.body = d.body) :
    c.kind.initializer? = d.kind.initializer? ∧ c.methods = d.methods := by
  obtain ⟨initializer, methods⟩ := eq_of_append (p := fun m : Method => m.name = "constructor")
    (fun m mem => (hc.initializer m (Option.mem_toList.mp mem)).1)
    (fun m mem => (hd.initializer m (Option.mem_toList.mp mem)).1)
    (fun m here => (hc.methods m (List.mem_of_mem_head? here)).1)
    (fun m here => (hd.methods m (List.mem_of_mem_head? here)).1) same
  rw [← @Option.head?_toList _ c.kind.initializer?, initializer, Option.head?_toList]
  exact ⟨rfl, methods⟩

/-- what stands in front of a method -/
def indent : Text := Text.ofString "\n" ++ Text.ofString "  "

theorem endsLine_indent (t : Text) : Method.EndsLine (indent ++ t) := by
  rintro _ ⟨⟩
  rfl

theorem render_eq (c : Class) : c.render =
    opening c.exported c.kind.word ++ (c.qualifiedName ++ c.body.flatMap (indent ++ Method.render ·)) := by
  rw [render, Text.join_cons_flatMap, heading_eq, ← body, List.flatMap_map, List.append_assoc]
  simp only [indent, List.append_assoc]

/-- what may stand behind a class: nothing, or a line that is not that of a method -/
structure Ends (t : Text) : Prop where
  line : Method.EndsLine t
  noMethod : ¬ indent <+: t

theorem legible (h : c.WellNamed) : Legible Ends WellNamed render c := by
  intro d named r s endsR endsS same
  rw [render_eq, render_eq] at same
  simp only [List.append_assoc] at same
  obtain ⟨exported, word⟩ : c.exported = d.exported ∧ c.kind.word = d.kind.word := by
    rcases List.prefix_or_prefix_of_prefix (List.prefix_append _ _) ⟨_, same.symm⟩ with h | h
    · exact opening_unique _ _ _ (word_mem c.kind) _ (word_mem d.kind) h
    · obtain ⟨exported, word⟩ := opening_unique _ _ _ (word_mem d.kind) _ (word_mem c.kind) h
      exact ⟨exported.symm, word.symm⟩
  rw [exported, word] at same
  have line : ∀ (ms : List Method) {t : Text}, Ends t →
      ∀ x ∈ (ms.flatMap (indent ++ Method.render ·) ++ t).head?, ¬ x ≠ '\n' := by
    intro ms t ends x here
    cases ms with
    | nil => exact not_not_intro (ends.line x here)
    | cons m ms =>
      cases here
      exact not_not_intro rfl
  obtain ⟨qualified, lines⟩ := eq_of_append h.qualified_line named.qualified_line (line _ endsR) (line _ endsS)
    (List.append_cancel_left same)
  obtain ⟨body, behind⟩ := Legible.repeated (fun _ _ _ => endsLine_indent _)
    (fun m mem => Method.legible (h.body m mem)) h.body named.body endsR.line endsS.line endsR.noMethod
    endsS.noMethod lines
  obtain ⟨name, moduleName⟩ := eq_of_qualifiedName h named qualified
  obtain ⟨initializer, methods⟩ := eq_of_body h named body
  have kind := ClassKind.eq_of_word word initializer
  obtain ⟨_, _, _, _, _⟩ := c
  obtain ⟨_, _, _, _, _⟩ := d
  cases name
  cases moduleName
  cases exported
  cases kind
  cases methods
  exact ⟨rfl, behind⟩

/-- a class on the next line -/
theorem ends_render (c : Class) (t : Text) : Ends (Text.ofString "\n" ++ (c.render ++ t)) where
  line := by
    rintro _ ⟨⟩
    rfl
  noMethod := by
    obtain ⟨x, rest, split, notBlank⟩ := exists_cons_opening c.exported c.kind
    rw [indent, List.prefix_append_right_inj, render_eq, split]
    exact not_prefix_of_head notBlank.symm

theorem ends_nil : Ends [] where
  line _ here := nomatch here
  noMethod := by decide

theorem render_ne_nil (c : Class) : c.render ≠ [] := by
  obtain ⟨x, rest, split, _⟩ := exists_cons_opening c.exported c.kind
  rw [render_eq, split]
  exact List.cons_ne_nil x _

/-- **Classes with proper names are told by their listing.** -/
theorem eq_of_listing {cs ds : List Class} (hc : ∀ c ∈ cs, c.WellNamed) (hd : ∀ d ∈ ds, d.WellNamed)
    (same : listing cs = listing ds) : cs = ds := by
  have full : ∀ d : Class, d.WellNamed → ¬ d.render <+: [] :=
    fun d _ empty => d.render_ne_nil (List.prefix_nil.mp empty)
  have same : Text.join "\n" (cs.map render) ++ [] = Text.join "\n" (ds.map render) ++ [] :=
    congrArg (· ++ []) same
  exact (Legible.series (fun d _ t => ends_render d t) (fun c mem => legible (hc c mem)) hc hd ends_nil ends_nil
    (by decide) (by decide) full full same).1

/-- an exported class with a constructor, a rest parameter and nested type arguments -/
def registry : Class where
  name := "Registry"
  moduleName := some "app.core"
  exported := true
  kind := .withConstructor (some ⟨"constructor", [⟨"size", .number⟩], none, none⟩)
  methods :=
    [⟨"add", [⟨"key", .string⟩], some ⟨"values", .mk "Map" [.string, .mk "Array" [.plain "item"]]⟩, some .any⟩]

theorem registry_wellNamed : registry.WellNamed := by
  have plain : ∀ name : Text, name.isName = true → (TypeRef.plain name).WellNamed :=
    fun _ isName => .mk (Text.isDotted_of_isName isName) fun _ mem => nomatch mem
  have items : (TypeRef.mk "Array" [.plain "item"]).WellNamed :=
    .mk (Text.isDotted_of_isName (by decide)) (List.forall_mem_singleton.mpr (plain _ (by decide)))
  have values : (TypeRef.mk "Map" [.string, .mk "Array" [.plain "item"]]).WellNamed :=
    .mk (Text.isDotted_of_isName (by decide))
      (List.forall_mem_cons.mpr ⟨plain _ (by decide), List.forall_mem_singleton.mpr items⟩)
  refine ⟨by decide, ?_, ?_, ?_⟩
  · rintro _ ⟨⟩
    exact ⟨by decide, by decide⟩
  · rintro _ ⟨⟩
    exact ⟨by decide, by decide, List.forall_mem_singleton.mpr ⟨by decide, plain _ (by decide)⟩,
      (fun _ h => nomatch h), fun _ h => nomatch h⟩
  · refine List.forall_mem_singleton.mpr ⟨by decide, by decide,
      List.forall_mem_singleton.mpr ⟨by decide, plain _ (by decide)⟩, ?_, ?_⟩
    · rintro _ ⟨⟩
      exact ⟨by decide, values⟩
    · rintro _ ⟨⟩
      exact plain _ (by decide)

theorem eq_of_listing_registry : (∀ c ∈ [registry, registry], c.WellNamed) ∧
    listing [registry, registry] = listing (List.replicate 2 registry) ∧
      [registry, registry] = List.replicate 2 registry := by
  have named : ∀ c ∈ [registry, registry], c.WellNamed :=
    List.forall_mem_cons.mpr ⟨registry_wellNamed, List.forall_mem_singleton.mpr registry_wellNamed⟩
  exact ⟨named, rfl, eq_of_listing named named rfl⟩

end Class

end Typings
