import Typings.Proofs.Declaration.MemberTexts
import Typings.Proofs.Text.Quoting
/-!
# Fallback texts

For a part of no kind that belongs in its place a text in angle brackets is shown.  Where all names are words, no
such text is found in what is shown of types: behind an opening bracket stand type parameters or type arguments,
and none of them begins as a fallback does, up to the mark behind it.

* `Text.fallbacks`            the texts for parts of no kind;
* `Text.Clear`                no bracket in a text opens a fallback, whatever stands behind the text;
* `Text.Clear.noFallback`      no fallback is found in a clear text;
* `Text.IsArgument`           a text that can stand behind an opening bracket;
* `Text.clear_angled`         arguments in brackets are clear.
-/

namespace Typings

namespace Text

/-- what is shown for a part of no kind that belongs in its place -/
def fallbacks : List Text :=
  ["<invalid type>", "<invalid member>", "<invalid ambient declaration>", "<invalid declaration>"]

/-- no text begins with both -/
def Differs (t s : Text) : Prop := ∀ a b, t ++ a ≠ s ++ b

theorem Differs.append {t s : Text} (h : Differs t s) (u : Text) : Differs (t ++ u) s := by
  intro a b
  rw [List.append_assoc]
  exact h (u ++ a) b

/-- no angle bracket in a text opens a fallback, whatever stands behind the text -/
def Clear (t : Text) : Prop :=
  ∀ front rest, t = front ++ .scalar '<' :: rest → ∀ s ∈ fallbacks, Differs (.scalar '<' :: rest) s

/-- every fallback begins with the same word, and none with a bound -/
theorem fallback_spec : ∀ s ∈ fallbacks, ∃ (x : CodePoint) (rest : Text), x ≠ 'e' ∧
    s = .scalar '<' :: (Text.ofString "invalid" ++ .scalar ' ' :: x :: rest) := by
  simp only [fallbacks, List.forall_mem_cons]
  exact ⟨⟨'t', "ype>", by decide, by decide⟩, ⟨'m', "ember>", by decide, by decide⟩,
    ⟨'a', "mbient declaration>", by decide, by decide⟩, ⟨'d', "eclaration>", by decide, by decide⟩,
    List.forall_mem_nil _⟩

/-! ## Clear texts -/

/-- no fallback is found in a clear text -/
theorem Clear.noFallback {t : Text} (h : t.Clear) : ∀ s ∈ fallbacks, ¬ s <:+: t := by
  rintro s mem ⟨front, rest, rfl⟩
  obtain ⟨x, more, -, rfl⟩ := fallback_spec s mem
  refine h front (Text.ofString "invalid" ++ .scalar ' ' :: x :: more ++ rest) (List.append_assoc ..) _ mem [] rest ?_
  rw [List.append_nil]
  rfl

theorem clear_of_not_mem {t : Text} (h : .scalar '<' ∉ t) : t.Clear := by
  rintro front rest rfl
  exact absurd (List.mem_append_right _ List.mem_cons_self) h

theorem Clear.append {t u : Text} (ht : t.Clear) (hu : u.Clear) : (t ++ u).Clear := by
  intro front rest e s mem
  rcases List.append_eq_append_iff.mp e with ⟨more, rfl, e'⟩ | ⟨more, rfl, e'⟩
  · exact hu more rest e' s mem
  · cases more with
    | nil => exact hu [] rest e'.symm s mem
    | cons x more =>
      cases e'
      exact (ht front more rfl s mem).append u

/-- what is behind a text is clear if the whole is -/
theorem Clear.behind {t u : Text} (h : (t ++ u).Clear) : u.Clear := by
  rintro front rest rfl s mem
  exact h (t ++ front) rest (List.append_assoc ..).symm s mem

theorem clear_nil : Clear [] := clear_of_not_mem List.not_mem_nil

theorem Clear.join {sep : Text} (between : sep.Clear) {parts : List Text} (h : ∀ t ∈ parts, t.Clear) :
    (Text.join sep parts).Clear := by
  cases parts with
  | nil => exact clear_nil
  | cons t parts =>
    obtain ⟨first, further⟩ := List.forall_mem_cons.mp h
    rw [join_cons_flatMap]
    refine first.append ?_
    clear h first
    induction parts with
    | nil => exact clear_nil
    | cons t parts ih =>
      obtain ⟨next, further⟩ := List.forall_mem_cons.mp further
      exact (between.append next).append (ih further)

theorem Clear.when (mark : Bool) {t : Text} (h : t.Clear) : (Text.when mark t).Clear := by
  cases mark
  · exact clear_nil
  · exact h

theorem Clear.spaced {t : Option Text} (h : ∀ word ∈ t, word.Clear) : (Text.spaced t).Clear := by
  unfold Text.spaced
  split
  · exact clear_nil
  · exact clear_nil
  · exact (h _ rfl).append (clear_of_not_mem (by decide))

theorem Clear.optional {mark : Text} (h : mark.Clear) {t : Option Text} (ht : ∀ u ∈ t, u.Clear) :
    (Text.behind mark t).Clear := by
  cases t with
  | none => exact clear_nil
  | some t => exact h.append (ht t rfl)

/-- a text without the white space at its front -/
theorem Clear.trimStart {t : Text} (h : t.Clear) : (Text.trimStart t).Clear :=
  Clear.behind (t := t.takeWhile CodePoint.isSpace) (List.takeWhile_append_dropWhile ▸ h)

/-- quotes and escapes hold no opening bracket -/
theorem clear_encode {t : Text} (h : .scalar '<' ∉ t) : (Quoted.encode t).Clear := by
  have isQuote := Quoted.quoteFor_isQuote t
  have noQuote : CodePoint.scalar '<' ∉ [CodePoint.scalar (Quoted.quoteFor t)] := by
    rcases isQuote with e | e <;> rw [e] <;> decide
  refine clear_of_not_mem fun mem => ?_
  rcases List.mem_append.mp mem with mem | mem
  · rcases List.mem_append.mp mem with mem | mem
    · exact noQuote mem
    · obtain ⟨x, hx, mem⟩ := List.mem_flatMap.mp mem
      have piece := Quoted.escape_piece isQuote x
      generalize Quoted.escape (Quoted.quoteFor t) x = u at piece mem
      cases piece with
      | plain => exact h (List.mem_singleton.mp mem ▸ hx)
      | sign _ stands =>
        have e := CodePoint.scalar.inj (List.mem_singleton.mp ((List.mem_cons.mp mem).resolve_left (by decide)))
        rw [← e] at stands
        cases stands
      | number stands _ =>
        have signs : ∀ p ∈ Quoted.letters, CodePoint.scalar '<' ∉ [CodePoint.scalar '\\', CodePoint.scalar p.1] := by
          decide
        rcases List.mem_append (s := [_, _]).mp mem with mem | mem
        · exact signs _ stands mem
        · exact absurd (Literal.isHexDigit_hexDigits _ _ _ mem) (by decide)
  · exact noQuote mem

/-! ## Arguments -/

/-- a text that can stand behind an opening bracket, in front of a comma or another bracket -/
structure IsArgument (t : Text) : Prop where
  clear : t.Clear
  differs : ∀ c ∈ [',', '>', '['], ∀ rest, ∀ s ∈ fallbacks, Differs (.scalar '<' :: (t ++ .scalar c :: rest)) s

/-- the name of something -/
structure IsWord (t : Text) : Prop where
  noBracket : .scalar '<' ∉ t
  noSpace : .scalar ' ' ∉ t

theorem IsWord.clear {t : Text} (h : t.IsWord) : t.Clear := clear_of_not_mem h.noBracket

theorem mem_join {x : CodePoint} {sep : Text} {parts : List Text} (h : x ∈ Text.join sep parts) :
    x ∈ sep ∨ ∃ p ∈ parts, x ∈ p := by
  cases parts with
  | nil => cases h
  | cons p parts =>
    rw [join_cons_flatMap] at h
    rcases List.mem_append.mp h with h | h
    · exact .inr ⟨p, List.mem_cons_self, h⟩
    · obtain ⟨q, mem, h⟩ := List.mem_flatMap.mp h
      exact (List.mem_append.mp h).imp_right fun h => ⟨q, List.mem_cons_of_mem _ mem, h⟩

/-- names with a mark between neighbours -/
theorem IsWord.join {sep : Text} (between : sep.IsWord) {parts : List Text} (h : ∀ p ∈ parts, p.IsWord) :
    (Text.join sep parts).IsWord where
  noBracket mem := (mem_join mem).elim between.noBracket fun ⟨p, hp, mem⟩ => (h p hp).noBracket mem
  noSpace mem := (mem_join mem).elim between.noSpace fun ⟨p, hp, mem⟩ => (h p hp).noSpace mem

section
variable {t : Text}

/-- where a text without spaces ends, if it can be the beginning of a fallback -/
theorem eq_of_front {u v : Text} {c : CodePoint} (noSpace : .scalar ' ' ∉ t) (other : c ∉ Text.ofString "invalid")
    (e : t ++ c :: u = Text.ofString "invalid" ++ .scalar ' ' :: v) : c = ' ' ∧ u = v := by
  rcases List.append_eq_append_iff.mp e with ⟨more, e', e⟩ | ⟨more, rfl, e⟩
  · cases more with
    | nil =>
      cases e
      exact ⟨rfl, rfl⟩
    | cons x more =>
      cases e
      exact absurd (e' ▸ List.mem_append_right _ List.mem_cons_self) other
  · cases more with
    | nil =>
      cases e
      exact ⟨rfl, rfl⟩
    | cons x more =>
      cases e
      exact absurd (List.mem_append_right _ List.mem_cons_self) noSpace

/-- a text without spaces in front of a mark -/
theorem differs_word (noSpace : .scalar ' ' ∉ t) {c : CodePoint} (other : c ∉ Text.ofString "invalid ") (rest : Text) :
    ∀ s ∈ fallbacks, Differs (.scalar '<' :: (t ++ c :: rest)) s := by
  intro s mem a b e
  obtain ⟨x, more, -, rfl⟩ := fallback_spec s mem
  simp only [List.cons_append, List.append_assoc, List.cons.injEq, true_and] at e
  obtain ⟨rfl, -⟩ := eq_of_front noSpace (fun mem => other (List.mem_append_left _ mem)) e
  exact other (by decide)

/-- a text without spaces in front of a bound -/
theorem differs_bound (noSpace : .scalar ' ' ∉ t) (rest : Text) :
    ∀ s ∈ fallbacks, Differs (.scalar '<' :: (t ++ .scalar ' ' :: .scalar 'e' :: rest)) s := by
  intro s mem a b e
  obtain ⟨x, more, other, rfl⟩ := fallback_spec s mem
  simp only [List.cons_append, List.append_assoc, List.cons.injEq, true_and] at e
  obtain ⟨-, e⟩ := eq_of_front noSpace (by decide) e
  exact other (List.cons.inj e).1.symm

/-- a text that begins with another sign than the fallbacks -/
theorem differs_head {c : CodePoint} (other : c ≠ 'i') (rest : Text) :
    ∀ s ∈ fallbacks, Differs (.scalar '<' :: c :: rest) s := by
  intro s mem a b e
  obtain ⟨x, more, -, rfl⟩ := fallback_spec s mem
  exact other (List.cons.inj (List.cons.inj e).2).1

theorem IsWord.isArgument (h : t.IsWord) : t.IsArgument where
  clear := h.clear
  differs c mem rest := by
    have other : CodePoint.scalar c ∉ Text.ofString "invalid " := by
      simp only [List.mem_cons, List.not_mem_nil, or_false] at mem
      rcases mem with rfl | rfl | rfl <;> decide
    exact differs_word h.noSpace other rest

theorem isArgument_head {c : CodePoint} (other : c ≠ 'i') (clear : Clear (c :: t)) : IsArgument (c :: t) where
  clear := clear
  differs _ _ rest := differs_head other (t ++ _ :: rest)

theorem IsArgument.array (h : t.IsArgument) : IsArgument (t ++ Text.ofString "[]") where
  clear := h.clear.append (clear_of_not_mem (by decide))
  differs c _ rest := by
    rw [List.append_assoc]
    exact h.differs '[' (by decide) (.scalar ']' :: .scalar c :: rest)

/-- arguments in brackets -/
theorem clear_angled {parts : List Text} (h : ∀ p ∈ parts, p.IsArgument) : (Text.angled parts).Clear := by
  unfold Text.angled
  split
  · exact clear_nil
  cases parts with
  | nil => exact absurd rfl ‹¬ _›
  | cons first parts =>
    obtain ⟨argument, -⟩ := List.forall_mem_cons.mp h
    have inner : (Text.join ", " (first :: parts) ++ Text.ofString ">").Clear :=
      (Clear.join (clear_of_not_mem (by decide)) fun p mem => (h p mem).clear).append (clear_of_not_mem (by decide))
    -- the bracket in front is the only one that is not inside the arguments
    rintro (_ | ⟨x, front⟩) rest e s mem
    · obtain rfl : rest = Text.join ", " (first :: parts) ++ Text.ofString ">" := (List.cons.inj e).2.symm
      rw [join_cons_flatMap]
      cases parts with
      | nil =>
        rw [List.flatMap_nil, List.append_nil]
        exact argument.differs '>' (by decide) [] s mem
      | cons next parts =>
        rw [List.append_assoc]
        exact argument.differs ',' (by decide) _ s mem
    · exact inner front rest (List.cons.inj e).2 s mem

/-- a name with arguments -/
theorem IsWord.reference {parts : List Text} (h : t.IsWord) (arguments : ∀ p ∈ parts, p.IsArgument) :
    IsArgument (t ++ Text.angled parts) where
  clear := h.clear.append (clear_angled arguments)
  differs c mem rest := by
    unfold Text.angled
    split
    · rw [List.append_nil]
      exact h.isArgument.differs c mem rest
    · rw [List.append_assoc]
      exact differs_word h.noSpace (by decide) _

/-- a name with a bound -/
theorem IsWord.bounded {bound : Option Text} (h : t.IsWord) (clear : ∀ u ∈ bound, u.Clear) :
    IsArgument (t ++ Text.behind " extends " bound) := by
  cases bound with
  | none =>
    rw [Text.behind, List.append_nil]
    exact h.isArgument
  | some u =>
    refine ⟨h.clear.append (Clear.optional (clear_of_not_mem (by decide)) clear), fun c mem rest => ?_⟩
    rw [List.append_assoc]
    exact differs_bound h.noSpace _

end

end Text

end Typings
