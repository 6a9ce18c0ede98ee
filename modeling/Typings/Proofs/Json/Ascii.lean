import Typings.Proofs.Json.Decoding
/-!
# Structured values are written in ASCII

A value is written in ASCII, whatever texts are in it, so what is written has no surrogates.

* `Text.IsAscii`         a text in ASCII;
* `Json.ascii_printAt`   a value is written so, in any layout;
* `Json.Shown`           a text that shows a value on lines of its own;
* `Json.Shown.scalar`, `Json.Shown.decode?`   it has no surrogates, and is read as the value.
-/

namespace Typings

/-- a text in ASCII -/
def Text.IsAscii (t : Text) : Prop := ∀ x ∈ t, x.toNat < 0x80

namespace Text

instance (t : Text) : Decidable t.IsAscii := inferInstanceAs (Decidable (∀ x ∈ t, x.toNat < 0x80))

theorem IsAscii.append {t u : Text} (ht : t.IsAscii) (hu : u.IsAscii) : IsAscii (t ++ u) :=
  List.forall_mem_append.mpr ⟨ht, hu⟩

theorem IsAscii.cons {x : CodePoint} {t : Text} (hx : x.toNat < 0x80) (ht : t.IsAscii) : IsAscii (x :: t) :=
  List.forall_mem_cons.mpr ⟨hx, ht⟩

theorem IsAscii.flatMap {α : Type} {xs : List α} {f : α → Text} (h : ∀ x ∈ xs, (f x).IsAscii) :
    IsAscii (xs.flatMap f) := by
  intro y mem
  obtain ⟨x, hx, hy⟩ := List.mem_flatMap.mp mem
  exact h x hx y hy

/-- no surrogate is in ASCII -/
theorem IsAscii.scalar {t : Text} (h : t.IsAscii) : ∀ x ∈ t, x.isSurrogate = false := by
  intro x mem
  cases x with
  | scalar => rfl
  | surrogate n =>
    have small : 0xD800 + n.val < 0x80 := h _ mem
    omega

end Text

namespace Json

/-! ## Strings, numbers and blanks -/

theorem ascii_hexDigits (count n : Nat) : (Quoted.hexDigits count n).IsAscii := by
  have digits : ∀ d < 16, (Quoted.hexDigit d).toNat < 0x80 := by decide
  induction count generalizing n with
  | zero => exact List.forall_mem_nil _
  | succ count ih =>
    have last := digits (n % 16) (Nat.mod_lt _ (by decide))
    exact (ih _).append (.cons last (List.forall_mem_nil _))

theorem ascii_escapeUnit (n : Nat) : (escapeUnit n).IsAscii :=
  .cons (by decide) (.cons (by decide) (ascii_hexDigits 4 n))

/-- a code point of ASCII is written as it is or behind a backslash, and any other one by its number -/
theorem ascii_escape (x : CodePoint) : (escape x).IsAscii := by
  unfold escape
  iterate 7
    split
    · decide
  split
  · rename_i range
    exact .cons (Nat.lt_trans range.2 (by decide)) (List.forall_mem_nil _)
  split
  · exact ascii_escapeUnit _
  · exact (ascii_escapeUnit _).append (ascii_escapeUnit _)

theorem ascii_string (t : Text) : (string t).IsAscii :=
  .cons (by decide) (.append (.flatMap fun x _ => ascii_escape x) (by decide))

theorem ascii_ofNat (n : Nat) : (Text.ofNat n).IsAscii := by
  intro x mem
  have digit := isDigit_ofNat n x mem
  cases x with
  | surrogate => cases digit
  | scalar c =>
    have range : 48 ≤ c.toNat ∧ c.toNat ≤ 57 := Char.isDigit_iff_toNat.mp digit
    exact Nat.lt_of_le_of_lt range.2 (by decide)

theorem ascii_ofInt (n : Int) : (Text.ofInt n).IsAscii := by
  cases n with
  | ofNat n => exact ascii_ofNat n
  | negSucc n => exact .append (by decide) (ascii_ofNat (n + 1))

theorem ascii_of_isSpace {t : Text} (h : ∀ x ∈ t, isSpace x = true) : t.IsAscii := by
  intro x mem
  have space := h x mem
  simp only [isSpace, Bool.or_eq_true, beq_iff_eq] at space
  rcases space with ((rfl | rfl) | rfl) | rfl <;> decide

/-! ## Values -/

section
variable {l : Layout} (spaced : l.Spaced)
include spaced

theorem Layout.Spaced.ascii_between (depth : Nat) : (l.between depth).IsAscii := by
  obtain ⟨blanks, e, blank⟩ := spaced.between depth
  rw [e]
  exact .cons (by decide) (ascii_of_isSpace blank)

mutual

/-- a value is written in ASCII -/
theorem ascii_printAt : ∀ (v : Json) (depth : Nat), (printAt l depth v).IsAscii
  | null, _ => by
    rw [printAt]
    decide
  | bool b, _ => by
    rw [printAt]
    cases b <;> decide
  | int n, _ => by
    rw [printAt]
    exact ascii_ofInt n
  | text t, _ => by
    rw [printAt]
    exact ascii_string t
  | array [], _ => by
    rw [printAt]
    decide
  | array (item :: items), depth => by
    have closing := ascii_of_isSpace (spaced.closing depth)
    rw [← List.append_nil (printAt l depth _), printAt_array, ← printItems_eq]
    exact .cons (by decide) ((ascii_of_isSpace (spaced.opening depth)).append
      ((ascii_printAt item _).append ((ascii_printItems items _).append (closing.append (by decide)))))
  | object [], _ => by
    rw [printAt]
    decide
  | object ((name, value) :: members), depth => by
    have closing := ascii_of_isSpace (spaced.closing depth)
    have member : (printMember l (depth + 1) (name, value)).IsAscii :=
      (ascii_string name).append (.append (by decide) (ascii_printAt value _))
    rw [← List.append_nil (printAt l depth _), printAt_object, ← printMembers_eq]
    exact .cons (by decide) ((ascii_of_isSpace (spaced.opening depth)).append
      (member.append ((ascii_printMembers members _).append (closing.append (by decide)))))

theorem ascii_printItems : ∀ (items : List Json) (depth : Nat), (printItems l depth items).IsAscii
  | [], _ => by
    rw [printItems]
    exact List.forall_mem_nil _
  | item :: items, depth => by
    rw [printItems]
    exact ((spaced.ascii_between depth).append (ascii_printAt item _)).append (ascii_printItems items _)

theorem ascii_printMembers : ∀ (members : List (Text × Json)) (depth : Nat), (printMembers l depth members).IsAscii
  | [], _ => by
    rw [printMembers]
    exact List.forall_mem_nil _
  | (name, value) :: members, depth => by
    rw [printMembers]
    exact ((((spaced.ascii_between depth).append (ascii_string name)).append (by decide)).append
      (ascii_printAt value _)).append (ascii_printMembers members _)

end

end

/-! ## Values on lines of their own -/

/-- a text shows a value: the value in some layout, and a line feed -/
def Shown (v : Json) (t : Text) : Prop := ∃ l : Layout, l.Spaced ∧ t = printAt l 0 v ++ Text.ofString "\n"

namespace Shown
variable {v : Json} {t : Text}

theorem scalar (h : v.Shown t) : ∀ x ∈ t, x.isSurrogate = false := by
  obtain ⟨l, spaced, rfl⟩ := h
  exact ((ascii_printAt spaced v 0).append (by decide)).scalar

/-- what is shown is read, unless there is a high half directly in front of a low half -/
theorem decode? (h : v.Shown t) (unpaired : v.Unpaired) : Json.decode? t = some v := by
  obtain ⟨l, spaced, rfl⟩ := h
  have skipped := skip_of_opens (printAt_opens l 0 v (.inl rfl)) (Text.ofString "\n")
  have enough : (printAt l 0 v).length ≤ (printAt l 0 v ++ Text.ofString "\n").length := by
    rw [List.length_append]
    exact Nat.le_add_right _ _
  rw [Json.decode?, skipped, valueWithin_printAt spaced unpaired enough (by decide), Option.bind_some]
  exact if_pos rfl

end Shown

end Json

end Typings
