import Typings.Proofs.Declaration.Types
/-!
# Reading imports and exports

The phrases of imports and exports mean what `Means` says, and so do module names.

* `source_reads`                         the module that an import names;
* `importClause_means`, `exportList_means`, …   one lemma for each phrase.
-/

namespace Typings
open Typings.Tree

theorem Tree.literal?_append (a b : List Tree) : literal? (a ++ b) = (literal? a).or (literal? b) := by
  induction a with
  | nil => rfl
  | cons t a ih =>
    cases t with
    | node label loc cs => exact ih
    | leaf kind text loc =>
      rw [List.cons_append, literal?, literal?]
      by_cases h : kind = some .STRING
      · rw [if_pos h, if_pos h]
        rfl
      · rw [if_neg h, if_neg h, ih]

section
open Terminal Nonterminal Slot
variable {loc : Loc} {ts : List Tree} {ls : List Token}

/-! ## Bindings -/

theorem binding_means (h : Row false [NAME, NAME] ts ls ∨ Row false [NAME] ts ls) :
    Means binding [.node (.phrase binding) loc ts] ls := by
  have found : ls = [] ∧ ∃ name more, names ts = name :: more := by
    rcases h with h | h
    · obtain ⟨t, t', l, l', rfl, rfl, here, further⟩ := h.once_inv
      obtain ⟨rfl, name, loc', rfl⟩ := here.word rfl (by decide)
      obtain ⟨rfl, renamed, loc'', rfl⟩ := further.last_inv.word rfl (by decide)
      exact ⟨rfl, name, [renamed], rfl⟩
    · obtain ⟨rfl, name, loc', rfl⟩ := h.last_inv.word rfl (by decide)
      exact ⟨rfl, name, [], rfl⟩
  obtain ⟨rfl, name, more, found⟩ := found
  have step : ∀ rest, Binding.ofTrees (.node (.phrase binding) loc ts :: rest) =
      (.ok ⟨name, more.head?⟩ : Except BuildError Binding) >>= fun b =>
        Binding.ofTrees rest >>= fun bs => .ok (b :: bs) := by
    intro rest
    rw [Binding.ofTrees, if_pos rfl, found]
    rfl
  exact ⟨rfl, Passes.one step (.ok trivial)⟩

theorem moreBindings_means (h : Row false [binding] ts ls ∨ Row false [moreBindings, binding] ts ls) :
    Means moreBindings ts ls := by
  rcases h with h | h
  · exact h.last_inv
  · obtain ⟨t, t', l, l', rfl, rfl, here, further⟩ := h.once_inv
    obtain ⟨rfl, front⟩ := here
    obtain ⟨rfl, back⟩ := further.last_inv
    exact ⟨rfl, front.append back⟩

theorem namedBindings_means (h : Row false [binding, optional moreBindings] ts ls ∨
    Row false [] ts ls) : Means namedBindings [.node (.phrase namedBindings) loc ts] ls := by
  have none : Builds Binding.ofTrees (fun _ => True) [] [] := .ok fun _ _ => trivial
  rcases h with h | h
  · obtain ⟨t, t', l, l', rfl, rfl, here, further⟩ := h.once_inv
    obtain ⟨rfl, front⟩ := here
    rcases further.lastOptional_inv with ⟨rfl, back⟩ | ⟨rfl, rfl⟩
    · exact ⟨loc, _, rfl, rfl, (front.append back).alone none⟩
    · rw [List.append_nil]
      exact ⟨loc, _, rfl, rfl, front.alone none⟩
  · obtain ⟨rfl, rfl⟩ := h.nil_inv
    exact ⟨loc, _, rfl, rfl, none⟩

/-! ## Import clauses -/

theorem noClause : Adds ImportParts.addTrees (fun _ => True) [] [] := by
  intro parts _
  rw [ImportParts.addTrees]
  exact .ok trivial

theorem defaultBinding_means (h : Row false [NAME] ts ls) :
    Means defaultBinding [.node (.phrase defaultBinding) loc ts] ls := by
  obtain ⟨rfl, name, loc', rfl⟩ := h.last_inv.word rfl (by decide)
  refine ⟨rfl, ⟨_, _, _, rfl⟩, ?_⟩
  intro rest more good parts _
  rw [List.singleton_append, ImportParts.addTrees]
  exact good { parts with byDefault := some name } trivial

theorem namespaceBinding_means (h : Row false [NAME] ts ls) :
    Means namespaceBinding [.node (.phrase namespaceBinding) loc ts] ls := by
  obtain ⟨rfl, name, loc', rfl⟩ := h.last_inv.word rfl (by decide)
  refine ⟨rfl, ⟨_, _, _, rfl⟩, ?_⟩
  intro rest more good parts _
  rw [List.singleton_append, ImportParts.addTrees]
  exact good { parts with wholeName := some name } trivial

theorem isClause_of_namedBindings (h : Means namedBindings ts ls) : Means importClause ts ls := by
  obtain ⟨loc', cs, rfl, rfl, reads⟩ := h
  refine ⟨rfl, ⟨_, _, _, rfl⟩, ?_⟩
  intro rest more good parts _
  rw [List.singleton_append, ImportParts.addTrees]
  exact reads.bind fun bindings _ => good _ trivial

/-- a clause of two parts is a node of its own -/
theorem pair_isClause {t t' : List Tree} {l l' : List Token} (h : Means importClause t l)
    (h' : Means importClause t' l') :
    Means importClause (Derivation.shown importClause loc (t ++ t')) (l ++ l') := by
  obtain ⟨rfl, ⟨label, loc', cs, rfl⟩, front⟩ := h
  obtain ⟨rfl, ⟨label', loc'', cs', rfl⟩, back⟩ := h'
  refine ⟨rfl, ⟨_, _, _, rfl⟩, ?_⟩
  intro rest more good parts _
  have whole := (front.append back).alone noClause
  show Reads ([] ++ more) _ (ImportParts.addTrees parts (.node (.phrase importClause) loc _ :: rest))
  rw [ImportParts.addTrees]
  exact (whole parts trivial).bind fun parts _ => good parts trivial

theorem importClause_means (h : Row false [defaultBinding] ts ls ∨
    Row false [namespaceBinding] ts ls ∨ Row false [namedBindings] ts ls ∨
    Row false [defaultBinding, namespaceBinding] ts ls ∨
    Row false [defaultBinding, namedBindings] ts ls) :
    Means importClause (Derivation.shown importClause loc ts) ls := by
  have alone : Means importClause ts ls →
      Means importClause (Derivation.shown importClause loc ts) ls := by
    intro h
    exact ⟨h.1, PassesNode.shown h.2 rfl⟩
  rcases h with h | h | h | h | h
  · exact alone h.last_inv
  · exact alone h.last_inv
  · exact alone (isClause_of_namedBindings h.last_inv)
  · obtain ⟨t, t', l, l', rfl, rfl, here, further⟩ := h.once_inv
    exact pair_isClause here further.last_inv
  · obtain ⟨t, t', l, l', rfl, rfl, here, further⟩ := h.once_inv
    exact pair_isClause here (isClause_of_namedBindings further.last_inv)

/-! ## Imports and exports -/

/-- the module that an import names -/
theorem source_reads {a : List Tree} (none : literal? a = none) (h : Shows STRING ts ls)
    (label : Label) (loc : Loc) : Reads ls (fun _ => True) (source label loc (a ++ ts)) := by
  obtain ⟨token, rfl, rfl⟩ := h.string
  rw [source, literal?_append, none]
  exact .literal token

theorem importAlias_means (h : Row false [optional EXPORT, NAME, entityName] ts ls) :
    Means importAlias [.node (.phrase importAlias) loc ts] ls := by
  obtain ⟨tm, ts₁, lm, ls₁, rfl, rfl, mark, h₁⟩ := h.optional_inv
  obtain ⟨tn, te, ln, le, rfl, rfl, here, h₂⟩ := h₁.once_inv
  obtain ⟨rfl, -⟩ := mark.word rfl (by decide)
  obtain ⟨rfl, name, found⟩ := here.name (mark.token?_ne (by decide)) (.phrase importAlias) loc te
  have quiet : child? entityName (tm ++ tn) = none := by
    rw [child?_append, mark.child?_word, here.child?_word]
    rfl
  obtain ⟨rfl, entity, foundEntity⟩ := entity_reads quiet h₂.last_inv (.phrase importAlias) loc []
  rw [List.append_nil, List.append_assoc] at foundEntity
  refine ⟨_, loc, _, rfl, rfl, ?_⟩
  show Reads [] _ (ModuleLink.ofNode? _ _ _)
  rw [ModuleLink.ofNode?, found, foundEntity]
  exact .ok (Option.some_ne_none _)

theorem externalImport_means (h : Row false [optional EXPORT, NAME, STRING] ts ls) :
    Means externalImport [.node (.phrase externalImport) loc ts] ls := by
  obtain ⟨tm, ts₁, lm, ls₁, rfl, rfl, mark, h₁⟩ := h.optional_inv
  obtain ⟨tn, tq, ln, lq, rfl, rfl, here, h₂⟩ := h₁.once_inv
  obtain ⟨rfl, marked⟩ := mark.word rfl (by decide)
  obtain ⟨rfl, name, found⟩ := here.name (mark.token?_ne (by decide)) (.phrase externalImport) loc tq
  obtain ⟨-, text, loc', rfl⟩ := here.word rfl (by decide)
  have quiet : literal? (tm ++ [.leaf (some NAME) text loc']) = none := by
    rcases marked with rfl | ⟨text', loc'', rfl⟩
    · rfl
    · rfl
  have source := source_reads quiet h₂.last_inv (.phrase externalImport) loc
  rw [List.append_assoc] at source
  refine ⟨_, loc, _, rfl, rfl, ?_⟩
  rw [ModuleLink.ofNode?, found]
  exact source.map fun _ _ => Option.some_ne_none _

theorem moduleImport_means (h : Row false [importClause, STRING] ts ls ∨ Row false [STRING] ts ls) :
    Means moduleImport [.node (.phrase moduleImport) loc ts] ls := by
  have parts : ∃ tc tq, ts = tc ++ tq ∧ literal? tc = none ∧ Shows STRING tq ls ∧
      Passes (Adds ImportParts.addTrees fun _ => True) tc [] := by
    rcases h with h | h
    · obtain ⟨tc, tq, lc, lq, rfl, rfl, clause, further⟩ := h.once_inv
      obtain ⟨rfl, ⟨label, loc', cs, rfl⟩, passes⟩ := clause
      exact ⟨_, tq, rfl, rfl, further.last_inv, passes⟩
    · exact ⟨[], ts, rfl, rfl, h.last_inv, .nil⟩
  obtain ⟨tc, tq, rfl, quiet, string, passes⟩ := parts
  have source := source_reads quiet string (.phrase moduleImport) loc
  have last : Adds ImportParts.addTrees (fun _ => True) tq [] := by
    obtain ⟨token, rfl, rfl⟩ := string.string
    intro parts _
    rw [ImportParts.addTrees]
    exact noClause parts trivial
  have clause := passes tq [] last {} trivial
  refine ⟨_, loc, _, rfl, rfl, ?_⟩
  rw [ModuleLink.ofNode?, ← List.append_nil ls]
  exact source.bind fun source _ => clause.map fun parts _ => Option.some_ne_none _

theorem exported_entity (h : Row false [EXPORT, entityName] ts ls) (label : Label) (loc : Loc) :
    ls = [] ∧ ∃ name, entity label loc ts = .ok name := by
  obtain ⟨tm, te, lm, le, rfl, rfl, mark, further⟩ := h.once_inv
  obtain ⟨rfl, -⟩ := mark.word rfl (by decide)
  obtain ⟨rfl, name, found⟩ := entity_reads (mark.child?_word _) further.last_inv label loc []
  rw [List.append_nil] at found
  exact ⟨rfl, name, found⟩

theorem exportAssignment_means (h : Row false [EXPORT, entityName] ts ls) :
    Means exportAssignment [.node (.phrase exportAssignment) loc ts] ls := by
  obtain ⟨rfl, name, found⟩ := exported_entity h (.phrase exportAssignment) loc
  refine ⟨_, loc, _, rfl, rfl, ?_⟩
  rw [ModuleLink.ofNode?, found]
  exact .ok (Option.some_ne_none _)

theorem exportDefault_means (h : Row false [EXPORT, entityName] ts ls) :
    Means exportDefault [.node (.phrase exportDefault) loc ts] ls := by
  obtain ⟨rfl, name, found⟩ := exported_entity h (.phrase exportDefault) loc
  refine ⟨_, loc, _, rfl, rfl, ?_⟩
  rw [ModuleLink.ofNode?, found]
  exact .ok (Option.some_ne_none _)

theorem no_literals (h : Shows namedBindings ts ls) : ls = [] := by
  obtain ⟨_, _, _, none, _⟩ := h
  exact none

theorem exportList_means (h : Row false [EXPORT, namedBindings, STRING] ts ls ∨
    Row false [EXPORT, namedBindings] ts ls) :
    Means exportList [.node (.phrase exportList) loc ts] ls := by
  have parts : ∃ tm tb tq, ts = tm ++ (tb ++ tq) ∧ Shows EXPORT tm [] ∧ Shows namedBindings tb [] ∧
      Perhaps (Shows STRING) tq ls := by
    rcases h with h | h
    · obtain ⟨tm, ts₁, lm, ls₁, rfl, rfl, mark, h₁⟩ := h.once_inv
      obtain ⟨tb, tq, lb, lq, rfl, rfl, here, h₂⟩ := h₁.once_inv
      obtain ⟨rfl, -⟩ := mark.word rfl (by decide)
      obtain rfl := no_literals here
      exact ⟨tm, tb, tq, rfl, mark, here, .inl h₂.last_inv⟩
    · obtain ⟨tm, tb, lm, lb, rfl, rfl, mark, h₁⟩ := h.once_inv
      obtain ⟨rfl, -⟩ := mark.word rfl (by decide)
      have here := h₁.last_inv
      obtain rfl := no_literals here
      exact ⟨tm, tb, [], by rw [List.append_nil], mark, here, .inr ⟨rfl, rfl⟩⟩
  obtain ⟨tm, tb, tq, rfl, mark, ⟨loc', cs, rfl, -, reads⟩, string⟩ := parts
  obtain ⟨-, text, loc'', rfl⟩ := mark.word rfl (by decide)
  refine ⟨_, loc, _, rfl, rfl, ?_⟩
  rw [ModuleLink.ofNode?]
  refine reads.bind fun bindings _ => ?_
  rcases string with string | ⟨rfl, rfl⟩
  · obtain ⟨token, rfl, rfl⟩ := string.string
    exact (Reads.literal token).map fun value _ => Option.some_ne_none _
  · exact .ok (Option.some_ne_none _)

/-! ## Module names -/

/-- a row of names in a module name -/
def PassesPath (ts : List Tree) : Prop := Passes (Builds Tree.path fun _ => True) ts []

theorem no_path : Builds Tree.path (fun _ => True) [] [] := .ok fun _ _ => trivial

theorem name_passesPath (h : Shows NAME ts ls) : ls = [] ∧ PassesPath ts := by
  obtain ⟨rfl, text, loc', rfl⟩ := h.word rfl (by decide)
  refine ⟨rfl, ?_⟩
  have step : ∀ rest, path (.leaf (some NAME) text loc' :: rest) =
      (.ok text : Except BuildError Text) >>= fun t => path rest >>= fun p => .ok (t :: p) :=
    fun rest => rfl
  exact Passes.one step (.ok trivial)

theorem moreSegments_means (h : Row false [NAME] ts ls ∨ Row false [moreSegments, NAME] ts ls) :
    Means moreSegments ts ls := by
  rcases h with h | h
  · exact name_passesPath h.last_inv
  · obtain ⟨t, t', l, l', rfl, rfl, here, further⟩ := h.once_inv
    obtain ⟨rfl, front⟩ := here
    obtain ⟨rfl, back⟩ := name_passesPath further.last_inv
    exact ⟨rfl, Passes.append front back⟩

theorem moduleName_means (h : Row false [NAME, optional moreSegments] ts ls ∨
    Row false [STRING] ts ls) : Means moduleName [.node (.phrase moduleName) loc ts] ls := by
  rcases h with h | h
  · obtain ⟨t, t', l, l', rfl, rfl, here, further⟩ := h.once_inv
    obtain ⟨rfl, front⟩ := name_passesPath here
    rcases further.lastOptional_inv with ⟨rfl, back⟩ | ⟨rfl, rfl⟩
    · exact ⟨loc, _, rfl, (Passes.append front back).alone no_path⟩
    · rw [List.append_nil]
      exact ⟨loc, _, rfl, front.alone no_path⟩
  · obtain ⟨token, rfl, rfl⟩ := h.last_inv.string
    refine ⟨loc, _, rfl, ?_⟩
    exact (Reads.literal token).map fun _ _ _ _ => trivial

end

end Typings
