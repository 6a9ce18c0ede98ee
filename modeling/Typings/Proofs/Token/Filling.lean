import Typings.Proofs.Token.NextLine
/-!
# Ignored text by itself

What a gap is depends on the text behind it: blanks and line comments go as far as they can.  Here it
is said what ignored text is made of when nothing behind it is known.

* `Filler`                blanks, block comments, and line comments each with its line feed;
* `FillerAtEnd`           the same at the end of a text, where the last line comment needs no line feed;
* `Filler.isGap`          in front of what is not ignored, a filler is a gap;
* `Gap.filler`            and every gap is a filler.
-/

namespace Typings

/-- a row of blanks, block comments, and line comments that end with a line feed -/
inductive Filler : Text → Prop
  | nil : Filler []
  | blank {x : CodePoint} {more : Text} (isBlank : x.isBlank = true) (further : Filler more) :
      Filler (x :: more)
  | lineComment {body more : Text} (line : ∀ x ∈ body, x ≠ '\n') (further : Filler more) :
      Filler (.scalar '/' :: .scalar '/' :: (body ++ .scalar '\n' :: more))
  | blockComment {body more : Text}
      (first : ∀ s t : Text, body ++ [.scalar '*', .scalar '/'] = s ++ .scalar '*' :: .scalar '/' :: t →
        t = [])
      (further : Filler more) :
      Filler (.scalar '/' :: .scalar '*' :: (body ++ .scalar '*' :: .scalar '/' :: more))

/-- a filler at the end of a text, perhaps with a line comment that the text ends with -/
inductive FillerAtEnd : Text → Prop
  | whole {filler : Text} (isFiller : Filler filler) : FillerAtEnd filler
  | lineComment {filler body : Text} (isFiller : Filler filler) (line : ∀ x ∈ body, x ≠ '\n') :
      FillerAtEnd (filler ++ .scalar '/' :: .scalar '/' :: body)

/-! ## Fillers are gaps -/

theorem Gap.append_filler {filler gap rest : Text} (h : Filler filler) (h' : Gap gap rest)
    (ends : ¬ rest.Begins CodePoint.isBlank) : Gap (filler ++ gap) rest := by
  induction h with
  | nil => exact h'
  | @blank x more isBlank _ ih =>
    have all : ∀ y ∈ [x], y.isBlank = true := fun y hy => List.mem_singleton.mp hy ▸ isBlank
    have whole : Gap ([x] ++ (more ++ gap)) rest := ih.behind_blank (List.cons_ne_nil _ _) all ends
    exact whole
  | @lineComment body more line _ ih =>
    have next : Gap ([.scalar '\n'] ++ (more ++ gap)) rest :=
      ih.behind_blank (List.cons_ne_nil _ _) (by decide) ends
    have whole : .scalar '/' :: .scalar '/' :: (body ++ .scalar '\n' :: more) ++ gap =
        (.scalar '/' :: .scalar '/' :: body) ++ .scalar '\n' :: (more ++ gap) := by
      simp only [List.cons_append, List.append_assoc]
    rw [whole]
    exact .cons (.lineComment line (.inr ⟨_, rfl⟩)) next
  | @blockComment body more first _ ih =>
    have whole : .scalar '/' :: .scalar '*' :: (body ++ .scalar '*' :: .scalar '/' :: more) ++ gap =
        (.scalar '/' :: .scalar '*' :: (body ++ [.scalar '*', .scalar '/'])) ++ (more ++ gap) := by
      simp only [List.cons_append, List.append_assoc, List.nil_append]
    rw [whole]
    exact .cons (.blockComment first) ih

/-- in front of what begins with no blank, a filler is a gap -/
theorem Filler.isGap {filler rest : Text} (h : Filler filler)
    (ends : ¬ rest.Begins CodePoint.isBlank) : Gap filler rest := by
  have whole := Gap.append_filler h (.nil rest) ends
  rwa [List.append_nil] at whole

theorem FillerAtEnd.isGap {filler : Text} (h : FillerAtEnd filler) : Gap filler [] := by
  cases h with
  | whole isFiller => exact isFiller.isGap Text.not_begins_nil
  | lineComment isFiller line =>
    refine Gap.append_filler isFiller ?_ Text.not_begins_nil
    have last : Gap (.scalar '/' :: .scalar '/' :: _ ++ []) [] :=
      .cons (.lineComment line (.inl rfl)) (.nil [])
    rwa [List.append_nil] at last

/-! ## Gaps are fillers -/

theorem Filler.append_blank {blank more : Text} (all : ∀ x ∈ blank, x.isBlank = true)
    (h : Filler more) : Filler (blank ++ more) := by
  induction blank with
  | nil => exact h
  | cons x blank ih =>
    obtain ⟨first, others⟩ := List.forall_mem_cons.mp all
    exact .blank first (ih others)

/-- the rest of a filler that begins with a line feed -/
theorem Filler.of_lineFeed {more : Text} (h : Filler (.scalar '\n' :: more)) : Filler more := by
  generalize e : (.scalar '\n' :: more : Text) = whole at h
  cases h with
  | nil => cases e
  | blank _ further =>
    cases e
    exact further
  | lineComment => cases e
  | blockComment => cases e

theorem Filler.append_blockComment {body more : Text}
    (first : ∀ s t : Text, body ++ [.scalar '*', .scalar '/'] = s ++ .scalar '*' :: .scalar '/' :: t →
      t = []) (h : Filler more) :
    Filler (.scalar '/' :: .scalar '*' :: (body ++ [.scalar '*', .scalar '/']) ++ more) := by
  have whole : .scalar '/' :: .scalar '*' :: (body ++ [.scalar '*', .scalar '/']) ++ more =
      .scalar '/' :: .scalar '*' :: (body ++ .scalar '*' :: .scalar '/' :: more) := by
    simp only [List.cons_append, List.append_assoc, List.nil_append]
  rw [whole]
  exact .blockComment first h

namespace FillerAtEnd

/-- what may stand in front of a filler may stand in front of one at the end of a text -/
theorem append {front more : Text} (h : ∀ filler, Filler filler → Filler (front ++ filler))
    (h' : FillerAtEnd more) : FillerAtEnd (front ++ more) := by
  cases h' with
  | whole isFiller => exact .whole (h _ isFiller)
  | lineComment isFiller line =>
    rw [← List.append_assoc]
    exact .lineComment (h _ isFiller) line

theorem of_lineFeed {more : Text} (h : FillerAtEnd (.scalar '\n' :: more)) : FillerAtEnd more := by
  generalize e : (.scalar '\n' :: more : Text) = whole at h
  cases h with
  | whole isFiller =>
    subst e
    exact .whole isFiller.of_lineFeed
  | @lineComment filler body isFiller line =>
    cases filler with
    | nil => cases e
    | cons x filler =>
      obtain ⟨rfl, rfl⟩ := List.cons.inj e
      exact .lineComment isFiller.of_lineFeed line

end FillerAtEnd

/-- the gap in front of a text that goes on is a filler, and so is the one at the end of a text -/
theorem Gap.filler {gap rest : Text} (h : Gap gap rest) (ends : ¬ rest.Begins CodePoint.isBlank) :
    (rest ≠ [] → Filler gap) ∧ (rest = [] → FillerAtEnd gap) := by
  induction h with
  | nil => exact ⟨fun _ => .nil, fun _ => .whole .nil⟩
  | @cons piece more rest here further ih =>
    obtain ⟨before, atEnd⟩ := ih ends
    generalize behind : more ++ rest = text at here
    cases here with
    | blank _ all =>
      exact ⟨fun some => (before some).append_blank all,
        fun none => (atEnd none).append fun _ => Filler.append_blank all⟩
    | blockComment first =>
      exact ⟨fun some => (before some).append_blockComment first,
        fun none => (atEnd none).append fun _ => Filler.append_blockComment first⟩
    | @lineComment body _ line whole =>
      cases more with
      | nil =>
        -- nothing but the end of the text stands behind the comment
        obtain rfl : rest = text := behind
        rw [List.append_nil]
        rcases whole with rfl | ⟨_, rfl⟩
        · exact ⟨fun some => absurd rfl some, fun _ => .lineComment .nil line⟩
        · exact absurd (Text.begins_cons.mpr rfl) ends
      | cons x more =>
        subst behind
        obtain ⟨_, e⟩ := whole.resolve_left (List.cons_ne_nil _ _)
        obtain rfl := (List.cons.inj e).1
        have comment : ∀ filler, Filler filler →
            Filler (.scalar '/' :: .scalar '/' :: (body ++ [.scalar '\n']) ++ filler) := by
          intro filler isFiller
          have whole := Filler.lineComment line isFiller
          rwa [List.append_cons] at whole
        rw [List.append_cons]
        exact ⟨fun some => comment _ (before some).of_lineFeed,
          fun none => (atEnd none).of_lineFeed.append comment⟩

end Typings
