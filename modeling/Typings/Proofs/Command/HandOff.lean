import Typings.Command.Run
import Typings.Proofs.Json.Decoding
import Typings.Proofs.Model.WellFormed
/-!
# The structured value that is handed off

The product of a run that is asked for a structured value spells this value, and the value keeps the classes.

* `TypeRef.toJson_injective` to `Class.toJson_injective`   no two values have the same structured value;
* `Command.handOff`              code, diagnostics, warnings and classes as one structured value;
* `Command.handOff_lossless`     the main result.
-/

namespace Typings

/-- a value that may not be there is told by its structured value -/
theorem Json.ofOption_inj {α : Type} {f : α → Json} (injective : Function.Injective f) (some : ∀ x, f x ≠ null)
    {o o' : Option α} (same : ofOption f o = ofOption f o') : o = o' := by
  cases o with
  | none =>
    cases o' with
    | none => rfl
    | some x => exact absurd same.symm (some x)
  | some x =>
    cases o' with
    | none => exact absurd same (some x)
    | some y => exact congrArg Option.some (injective same)

theorem Text.ofString_inj {s t : String} (same : ofString s = ofString t) : s = t :=
  String.toList_injective ((List.map_inj_right fun _ _ => CodePoint.scalar.inj).mp same)

/-! ## Structured values of the class model -/

mutual

theorem TypeRef.eq_of_toJson : ∀ {s t : TypeRef}, s.toJson = t.toJson → s = t
  | .mk n as, .mk m bs, same => by
    simp only [toJson, Json.object.injEq, List.cons.injEq, Prod.mk.injEq, Json.text.injEq, Json.array.injEq] at same
    obtain ⟨⟨_, name⟩, ⟨_, args⟩, _⟩ := same
    rw [name, eq_of_toJsonAll args]

theorem TypeRef.eq_of_toJsonAll : ∀ {ss ts : List TypeRef}, toJsonAll ss = toJsonAll ts → ss = ts
  | [], [], _ => rfl
  | s :: ss, t :: ts, same => by
    obtain ⟨first, rest⟩ := List.cons.inj same
    rw [eq_of_toJson first, eq_of_toJsonAll rest]

end

theorem TypeRef.toJson_injective : Function.Injective TypeRef.toJson := fun _ _ => eq_of_toJson

theorem TypeRef.toJson_ne_null : ∀ t : TypeRef, t.toJson ≠ .null
  | .mk _ _ => nofun

theorem Parameter.toJson_injective : Function.Injective Parameter.toJson := by
  rintro ⟨name, type⟩ ⟨name', type'⟩ same
  simp only [toJson, Json.object.injEq, List.cons.injEq, Prod.mk.injEq, Json.text.injEq] at same
  obtain ⟨⟨_, rfl⟩, ⟨_, types⟩, _⟩ := same
  rw [TypeRef.toJson_injective types]

theorem Method.toJson_injective : Function.Injective Method.toJson := by
  rintro ⟨name, params, rest, result⟩ ⟨name', params', rest', result'⟩ same
  simp only [toJson, Json.object.injEq, List.cons.injEq, Prod.mk.injEq, Json.text.injEq, Json.array.injEq] at same
  obtain ⟨⟨_, rfl⟩, ⟨_, params⟩, ⟨_, rest⟩, ⟨_, result⟩, _⟩ := same
  rw [(List.map_inj_right fun _ _ => @Parameter.toJson_injective _ _).mp params,
    Json.ofOption_inj Parameter.toJson_injective (fun _ => nofun) rest,
    Json.ofOption_inj TypeRef.toJson_injective TypeRef.toJson_ne_null result]

theorem Class.toJson_injective : Function.Injective Class.toJson := by
  rintro ⟨name, module, exported, kind, methods⟩ ⟨name', module', exported', kind', methods'⟩ same
  simp only [toJson, Json.object.injEq, List.cons.injEq, Prod.mk.injEq, Json.text.injEq, Json.array.injEq,
    Json.bool.injEq] at same
  obtain ⟨⟨_, rfl⟩, ⟨_, module⟩, ⟨_, rfl⟩, ⟨_, word⟩, ⟨_, initializer⟩, ⟨_, methods⟩, _⟩ := same
  have initializer := Json.ofOption_inj Method.toJson_injective (fun _ => nofun) initializer
  rw [Json.ofOption_inj (fun _ _ => Json.text.inj) (fun _ => nofun) module,
    ClassKind.eq_of_word (Text.ofString_inj word) initializer,
    (List.map_inj_right fun _ _ => @Method.toJson_injective _ _).mp methods]

/-- a list of classes is told by its structured values -/
theorem Class.eq_of_map_toJson {cs ds : List Class} (same : cs.map toJson = ds.map toJson) : cs = ds :=
  (List.map_inj_right fun _ _ => @toJson_injective _ _).mp same

/-! ## The hand-off -/

namespace Command

/-- code, diagnostics, warnings and classes as one structured value -/
def handOff (code : Nat) (ds : List Diagnostic) (ws : List Text) (cs : List Class) : Json :=
  .object [
    ("exit_code", .int code),
    ("diagnostics", .array (ds.map Diagnostic.toJson)),
    ("warnings", .array (ws.map .text)),
    ("classes", .array (cs.map Class.toJson))]

/-- no text in diagnostics, warnings and classes has a high half directly in front of a low half -/
structure Unpaired (ds : List Diagnostic) (ws : List Text) (cs : List Class) : Prop where
  diagnostics : ∀ d ∈ ds, ∀ t ∈ d.toJson.texts, t.Unpaired
  warnings : ∀ w ∈ ws, w.Unpaired
  classes : ∀ c ∈ cs, ∀ t ∈ c.toJson.texts, t.Unpaired

variable {ds ds' : List Diagnostic} {ws ws' : List Text} {cs cs' : List Class}

theorem unpaired_classes (h : ∀ c ∈ cs, ∀ t ∈ c.toJson.texts, t.Unpaired) :
    (Json.array (cs.map Class.toJson)).Unpaired :=
  .array (List.forall_mem_map.mpr fun c mem => Json.unpaired_of_texts (h c mem))

theorem Unpaired.handOff (h : Unpaired ds ws cs) (code : Nat) : (handOff code ds ws cs).Unpaired := by
  refine .object ?_ ?_
  · simp only [List.forall_mem_cons]
    exact ⟨by decide, by decide, by decide, by decide, fun _ h => nomatch h⟩
  · simp only [List.forall_mem_cons]
    exact ⟨.int code, .array (List.forall_mem_map.mpr fun d mem => Json.unpaired_of_texts (h.diagnostics d mem)),
      .array (List.forall_mem_map.mpr fun w mem => .text (h.warnings w mem)), unpaired_classes h.classes,
      fun _ h => nomatch h⟩

theorem eq_of_handOff {code code' : Nat} (same : handOff code ds ws cs = handOff code' ds' ws' cs') :
    code = code' ∧ ws = ws' ∧ cs = cs' := by
  simp only [handOff, Json.object.injEq, List.cons.injEq, Prod.mk.injEq, Json.int.injEq, Json.array.injEq] at same
  obtain ⟨⟨_, code⟩, _, ⟨_, ws⟩, ⟨_, cs⟩, _⟩ := same
  exact ⟨Int.ofNat.inj code, (List.map_inj_right fun _ _ => Json.text.inj).mp ws, Class.eq_of_map_toJson cs⟩

/-- what a run delivers that is asked for a structured value -/
theorem product_eq_handOff {a : Arguments} (asked : a.json = true) (file : Text) (c : Conversion) :
    product a file c = (handOff (exitCode c.diagnostics) (diagnostics file c)
      (c.lowered.warnings.map fun w => Text.ofString w.message) c.lowered.classes).printIndented := by
  rw [product, if_pos asked, payload, handOff, List.map_map]
  rfl

/-- **The structured value that a run delivers is read back as a whole, and it tells the classes.** -/
theorem handOff_lossless (code : Nat) (h : Unpaired ds ws cs) :
    (∀ (a : Arguments) (file : Text) (c : Conversion), a.json = true →
      product a file c = (handOff (exitCode c.diagnostics) (diagnostics file c)
        (c.lowered.warnings.map fun w => Text.ofString w.message) c.lowered.classes).printIndented) ∧
    Json.decode? (handOff code ds ws cs).printIndented = some (handOff code ds ws cs) ∧
    Function.Injective Class.toJson ∧
    (∀ code' ds' ws' cs', Unpaired ds' ws' cs' →
      (handOff code ds ws cs).printIndented = (handOff code' ds' ws' cs').printIndented →
        code = code' ∧ ws = ws' ∧ cs = cs') ∧
    ∀ cs' : List Class, (∀ c ∈ cs', ∀ t ∈ c.toJson.texts, t.Unpaired) →
      (Json.array (cs.map Class.toJson)).printIndented = (Json.array (cs'.map Class.toJson)).printIndented →
        cs = cs' := by
  refine ⟨fun a file c asked => product_eq_handOff asked file c,
    Json.decode?_printAt Json.Layout.indented_spaced (h.handOff code) 0, Class.toJson_injective, ?_, ?_⟩
  · intro code' ds' ws' cs' h' same
    exact eq_of_handOff (Json.eq_of_printAt Json.Layout.indented_spaced (h.handOff code) (h'.handOff code') same)
  · intro cs' h' same
    have values := Json.eq_of_printAt Json.Layout.indented_spaced (unpaired_classes h.classes) (unpaired_classes h') same
    exact Class.eq_of_map_toJson (Json.array.inj values)

/-- a class with a lone surrogate in the name of its module, a quote in that of its method and a code point of two
halves in that of its result -/
def sampleClass : Class where
  name := "C"
  moduleName := some [.surrogate ⟨1, by decide⟩]
  exported := false
  kind := .withConstructor none
  methods := [⟨"say \"\"", [], none, some (.mk "😀" [.any])⟩]

theorem handOff_lossless_sampleClass :
    Unpaired [warned "c.d.ts" .tooManyConstructors] ["Too many constructors"] [sampleClass] ∧
    Json.decode? (handOff 0 [warned "c.d.ts" .tooManyConstructors] ["Too many constructors"] [sampleClass]).printIndented =
      some (handOff 0 [warned "c.d.ts" .tooManyConstructors] ["Too many constructors"] [sampleClass]) := by
  have unpaired : Unpaired [warned "c.d.ts" .tooManyConstructors] ["Too many constructors"] [sampleClass] :=
    ⟨by decide, by decide, by decide⟩
  exact ⟨unpaired, (handOff_lossless 0 unpaired).2.1⟩

end Command

end Typings
