import Typings.Model.OfDeclaration
/-!
# Paths of modules

The name of a module around a class is put together one module at a time, from the innermost to the
outermost.

* `Text.join_cons`, `Text.join_append`     texts with a separator between them;
* `Class.within_eq`                        the name behind one more module;
* `Class.within_within`                    two modules are one with both paths.
-/

namespace Typings

/-! ## Joined texts -/

namespace Text

theorem join_singleton (sep t : Text) : join sep [t] = t := List.append_nil t

theorem join_cons (sep t : Text) {ts : List Text} (some : ts ≠ []) :
    join sep (t :: ts) = t ++ sep ++ join sep ts := by
  cases ts with
  | nil => exact absurd rfl some
  | cons u ts =>
    rw [join, List.intersperse_cons_cons, List.flatten_cons, List.flatten_cons, ← join,
      List.append_assoc]

theorem join_append (sep : Text) {a b : List Text} (ha : a ≠ []) (hb : b ≠ []) :
    join sep (a ++ b) = join sep a ++ sep ++ join sep b := by
  induction a with
  | nil => exact absurd rfl ha
  | cons t a ih =>
    cases a with
    | nil => rw [List.singleton_append, join_cons sep t hb, join_singleton]
    | cons u a =>
      have rest : u :: a ++ b ≠ [] := List.cons_ne_nil _ _
      rw [List.cons_append, join_cons sep t rest, ih (List.cons_ne_nil _ _),
        join_cons sep t (List.cons_ne_nil u a)]
      simp only [List.append_assoc]

theorem join_concat (sep : Text) (ts : List Text) (t : Text) :
    join sep (ts ++ [t]) = ts.flatMap (· ++ sep) ++ t := by
  induction ts with
  | nil => exact join_singleton sep t
  | cons u ts ih =>
    have behind : ts ++ [t] ≠ [] := List.append_ne_nil_of_right_ne_nil _ (List.cons_ne_nil _ _)
    rw [List.cons_append, join_cons sep u behind, ih, List.flatMap_cons, List.append_assoc (u ++ sep)]

theorem join_cons_ne_nil (sep : Text) {t : Text} (full : t ≠ []) (ts : List Text) :
    join sep (t :: ts) ≠ [] := by
  cases ts with
  | nil => rwa [join_singleton]
  | cons u ts =>
    rw [join_cons sep t (List.cons_ne_nil u ts), List.append_assoc]
    exact List.append_ne_nil_of_left_ne_nil full _

theorem join_ne_nil (sep : Text) {ts : List Text} (some : ts ≠ []) (full : ∀ t ∈ ts, t ≠ []) :
    join sep ts ≠ [] := by
  cases ts with
  | nil => exact absurd rfl some
  | cons t ts => exact join_cons_ne_nil sep (full t List.mem_cons_self) ts

end Text

/-! ## One module and two -/

namespace Class

theorem modulePath?_eq (names : List Text) :
    modulePath? names = if names = [] then none else some (Text.join "." names) := by
  cases names with
  | nil => rfl
  | cons t ts => rfl

/-- the names of one part of a path: none if it is missing or empty -/
def segment (module : Option Text) : List Text := (module.filter fun t => !t.isEmpty).toList

theorem segment_some (t : Text) : segment (some t) = if t = [] then [] else [t] := by
  cases t with
  | nil => rfl
  | cons x t => rfl

theorem segment_modulePath? (path : List Text) :
    segment (modulePath? path) =
      if Text.join "." path = [] then [] else [Text.join "." path] := by
  cases path with
  | nil => rfl
  | cons t ts => exact segment_some _

theorem within_eq (module : Option Text) (c : Class) :
    c.within module =
      { c with moduleName := modulePath? (segment module ++ segment c.moduleName) } := by
  have two : ∀ f : Option Text → Option Text,
      [module, c.moduleName].filterMap f = (f module).toList ++ (f c.moduleName).toList := by
    intro f
    rw [List.filterMap_cons, List.filterMap_cons, List.filterMap_nil]
    cases f module with
    | none => cases f c.moduleName <;> rfl
    | some t => cases f c.moduleName <;> rfl
  unfold within
  rw [two]
  rfl

/-- two paths, one behind the other, in front of a name -/
theorem modulePath?_modulePath? {p q : List Text} (hp : Text.join "." p ≠ [])
    (hq : Text.join "." q ≠ []) (names : List Text) :
    modulePath? (segment (modulePath? p) ++ segment (modulePath? (segment (modulePath? q) ++ names))) =
      modulePath? (segment (modulePath? (p ++ q)) ++ names) := by
  have both : Text.join "." (p ++ q) = Text.join "." p ++ "." ++ Text.join "." q := by
    refine Text.join_append "." ?_ ?_
    · rintro rfl
      exact hp rfl
    · rintro rfl
      exact hq rfl
  have full : Text.join "." (p ++ q) ≠ [] := by
    rw [both, List.append_assoc]
    exact List.append_ne_nil_of_left_ne_nil hp _
  have inner : segment (modulePath? ([Text.join "." q] ++ names)) =
      [Text.join "." (Text.join "." q :: names)] := by
    show segment (some (Text.join "." (Text.join "." q :: names))) = _
    rw [segment_some, if_neg (Text.join_cons_ne_nil "." hq names)]
  rw [segment_modulePath? p, if_neg hp, segment_modulePath? q, if_neg hq, inner,
    segment_modulePath? (p ++ q), if_neg full]
  show some (Text.join "." [Text.join "." p, Text.join "." (Text.join "." q :: names)]) =
    some (Text.join "." (Text.join "." (p ++ q) :: names))
  rw [Text.join_cons "." _ (List.cons_ne_nil _ _), Text.join_singleton, both]
  congr 1
  cases names with
  | nil => rw [Text.join_singleton, Text.join_singleton]
  | cons t ts =>
    rw [Text.join_cons "." _ (List.cons_ne_nil t ts), Text.join_cons "." _ (List.cons_ne_nil t ts)]
    simp only [List.append_assoc]

/-- two modules around a class are one with both paths -/
theorem within_within {p q : List Text} (hp : Text.join "." p ≠ []) (hq : Text.join "." q ≠ [])
    (c : Class) :
    (c.within (modulePath? q)).within (modulePath? p) = c.within (modulePath? (p ++ q)) := by
  rw [within_eq, within_eq, within_eq]
  exact congrArg (fun m => ({ c with moduleName := m } : Class))
    (modulePath?_modulePath? hp hq (segment c.moduleName))

end Class

end Typings
