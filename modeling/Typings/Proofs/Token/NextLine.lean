import Typings.Proofs.Token.Onward
/-!
# Texts that go on in the next line

A line feed is a blank that ends a line comment, too.  So what is read in front of it does not depend
on what comes behind it, and ignored text at the end goes on with that of the next line.

* `Text.nextLine s t`                 a text with another one from the next line on;
* `Pattern.gap_nextLine_of_end`       ignored text at the end goes on with that of the next line.
-/

namespace Typings

/-- a text with another one from the next line on -/
def Text.nextLine (s t : Text) : Text := s ++ .scalar '\n' :: t

theorem Text.nextLine_eq (s t : Text) : Text.nextLine s t = Text.onward (.scalar '\n') s t := rfl

theorem Text.append_nextLine (r s t : Text) :
    Text.nextLine (r ++ s) t = r ++ Text.nextLine s t := List.append_assoc ..

/-! ## Ignored text -/

/-- blanks in front of a gap make it longer -/
theorem Gap.behind_blank {blank gap rest : Text} (some : blank ≠ []) (all : ∀ x ∈ blank, x.isBlank = true)
    (h : Gap gap rest) (ends : ¬ rest.Begins CodePoint.isBlank) : Gap (blank ++ gap) rest := by
  cases h with
  | nil => exact .cons (.blank some all ends) (.nil rest)
  | @cons piece more rest here further =>
    cases here with
    | blank _ all' whole =>
      rw [← List.append_assoc]
      refine .cons (.blank (List.append_ne_nil_of_left_ne_nil some _) (fun x hx => ?_) whole) further
      exact (List.mem_append.mp hx).elim (all x) (all' x)
    | lineComment line whole =>
      refine .cons (.blank some all ?_) (.cons (.lineComment line whole) further)
      exact fun h => absurd (Text.begins_cons.mp h) (by decide)
    | blockComment first =>
      refine .cons (.blank some all ?_) (.cons (.blockComment first) further)
      exact fun h => absurd (Text.begins_cons.mp h) (by decide)

/-- a gap at the end of a text goes on with the gap of the next line -/
theorem Gap.nextLine_of_end {gap next rest : Text} (h : Gap gap []) (h' : Gap next rest)
    (ends : ¬ rest.Begins CodePoint.isBlank) : Gap (Text.nextLine gap next) rest := by
  have line : Gap (Text.nextLine [] next) rest := by
    show Gap ([.scalar '\n'] ++ next) rest
    exact h'.behind_blank (List.cons_ne_nil _ _) (by decide) ends
  generalize e : ([] : Text) = last at h
  induction h with
  | nil => exact line
  | @cons piece more last here _ ih =>
    subst e
    by_cases none : more = []
    · subst none
      rw [List.append_nil]
      cases here with
      | blank some all =>
        -- the blanks at the end and those of the next line are one piece
        have all' : ∀ x ∈ piece ++ [.scalar '\n'], x.isBlank = true := fun x hx =>
          (List.mem_append.mp hx).elim (all x) fun hx => by
            rw [List.mem_singleton.mp hx]
            decide
        have both := h'.behind_blank (List.append_ne_nil_of_left_ne_nil some _) all' ends
        rwa [List.append_assoc] at both
      | lineComment isLine => exact .cons (.lineComment isLine (.inr ⟨_, rfl⟩)) line
      | blockComment first => exact .cons (.blockComment first) line
    · have inner := here.onward (x := .scalar '\n') (List.append_ne_nil_of_left_ne_nil none _) (next ++ rest)
      rw [List.append_nil] at inner
      rw [Text.append_nextLine]
      refine .cons ?_ (ih rfl)
      rwa [Text.nextLine, List.append_assoc]

namespace Pattern

theorem not_begins_of_ignored {t : Text} (h : ignored t = none) : ¬ t.Begins CodePoint.isBlank := by
  rw [ignored, Option.or_eq_none_iff, Option.or_eq_none_iff] at h
  exact not_begins_of_many1 h.1.1

/-- ignored text at the end goes on with that of the next line -/
theorem gap_nextLine_of_end {s : Text} (t : Text) (none : (gap s).2 = []) :
    gap (Text.nextLine s t) = (Text.nextLine s (gap t).1, (gap t).2) := by
  have front := gap_isGap s
  have whole := gap_append s
  rw [none] at front whole
  rw [List.append_nil] at whole
  rw [whole] at front
  have ends := ignored_gap t
  have h := gap_of_isGap (front.nextLine_of_end (gap_isGap t) (not_begins_of_ignored ends)) ends
  rwa [Text.nextLine, List.append_assoc, List.cons_append, gap_append] at h

end Pattern

end Typings
