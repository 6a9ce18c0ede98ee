import Typings.Text.Utf8
/-!
# What is encoded is decoded

A text without surrogates has bytes, and they spell the text.

* `Utf8.decode?_encodeNumber`   the bytes of a code point are read as this code point;
* `Utf8.exists_encode`          a text without surrogates has bytes;
* `Utf8.scalar_of_encode`       and only such a text has;
* `Utf8.decode?_of_encode`      they spell the text.
-/

namespace Typings

theorem CodePoint.ofNat?_scalar (c : Char) : CodePoint.ofNat? c.toNat = some (.scalar c) := by
  unfold CodePoint.ofNat?
  rw [dif_pos (show c.toNat.isValidChar from c.valid)]
  congr

namespace Utf8

theorem scalar?_toNat {bound : Nat} {c : Char} (h : bound ≤ c.toNat) :
    scalar? bound c.toNat = some (.scalar c) := by
  rw [scalar?, if_pos h, CodePoint.ofNat?_scalar]

theorem toNat_ofNat {n : Nat} (h : n < 0x100) : (UInt8.ofNat n).toNat = n := by
  rw [UInt8.toNat_ofNat']
  exact Nat.mod_eq_of_lt h

/-- six bits behind the first byte -/
theorem continuation?_ofNat {n : Nat} (h : n < 0x40) : continuation? (UInt8.ofNat (0x80 + n)) = some n := by
  rw [continuation?, toNat_ofNat (by omega), if_pos (by omega), Nat.add_sub_cancel_left]

theorem toNat_lt (c : Char) : c.toNat < 0x110000 := by
  have valid : c.toNat.isValidChar := c.valid
  unfold Nat.isValidChar at valid
  omega

section
variable {c : Char} (rest : List UInt8)

theorem decode?_rest (x : CodePoint) :
    (do let t ← decode? rest; some (x :: t)) = (decode? rest).map (x :: ·) := by
  cases decode? rest <;> rfl

theorem decode?_one (h : c.toNat < 0x80) :
    decode? (UInt8.ofNat c.toNat :: rest) = (decode? rest).map (.scalar c :: ·) := by
  rw [decode?.eq_def]
  simp only [toNat_ofNat (show c.toNat < 0x100 by omega), if_pos h, scalar?_toNat (Nat.zero_le _)]
  exact decode?_rest rest _

theorem decode?_two {high low : Nat} (number : c.toNat = high * 0x40 + low) (h : 0x80 ≤ c.toNat)
    (highs : high < 0x20) (lows : low < 0x40) :
    decode? (UInt8.ofNat (0xC0 + high) :: UInt8.ofNat (0x80 + low) :: rest) =
      (decode? rest).map (.scalar c :: ·) := by
  rw [decode?.eq_def]
  simp only [toNat_ofNat (show 0xC0 + high < 0x100 by omega), continuation?_ofNat lows]
  rw [if_neg (by omega)]
  simp only [Option.bind_eq_bind, Option.bind_some]
  rw [if_pos (by omega), Nat.add_sub_cancel_left, ← number, scalar?_toNat h]
  exact decode?_rest rest _

theorem decode?_three {high middle low : Nat}
    (number : c.toNat = high * 0x1000 + middle * 0x40 + low) (h : 0x800 ≤ c.toNat)
    (highs : high < 0x10) (middles : middle < 0x40) (lows : low < 0x40) :
    decode? (UInt8.ofNat (0xE0 + high) :: UInt8.ofNat (0x80 + middle) :: UInt8.ofNat (0x80 + low) :: rest) =
      (decode? rest).map (.scalar c :: ·) := by
  rw [decode?.eq_def]
  simp only [toNat_ofNat (show 0xE0 + high < 0x100 by omega), continuation?_ofNat middles,
    continuation?_ofNat lows]
  rw [if_neg (by omega)]
  simp only [Option.bind_eq_bind, Option.bind_some]
  rw [if_neg (by omega), if_pos (by omega), Nat.add_sub_cancel_left, ← number, scalar?_toNat h]
  exact decode?_rest rest _

theorem decode?_four {high middle lower low : Nat}
    (number : c.toNat = high * 0x40000 + middle * 0x1000 + lower * 0x40 + low) (h : 0x10000 ≤ c.toNat)
    (highs : high < 0x8) (middles : middle < 0x40) (lowers : lower < 0x40) (lows : low < 0x40) :
    decode? (UInt8.ofNat (0xF0 + high) :: UInt8.ofNat (0x80 + middle) :: UInt8.ofNat (0x80 + lower) ::
        UInt8.ofNat (0x80 + low) :: rest) = (decode? rest).map (.scalar c :: ·) := by
  rw [decode?.eq_def]
  simp only [toNat_ofNat (show 0xF0 + high < 0x100 by omega), continuation?_ofNat middles,
    continuation?_ofNat lowers, continuation?_ofNat lows]
  rw [if_neg (by omega)]
  simp only [Option.bind_eq_bind, Option.bind_some]
  rw [if_neg (by omega), if_neg (by omega), if_pos (by omega), Nat.add_sub_cancel_left, ← number,
    scalar?_toNat h]
  exact decode?_rest rest _

/-- the bytes of a code point are read as this code point -/
theorem decode?_encodeNumber (c : Char) :
    decode? (encodeNumber c.toNat ++ rest) = (decode? rest).map (.scalar c :: ·) := by
  have below := toNat_lt c
  unfold encodeNumber
  split
  · exact decode?_one rest (by omega)
  split
  · exact decode?_two rest (by omega) (by omega) (by omega) (by omega)
  split
  · exact decode?_three rest (by omega) (by omega) (by omega) (by omega) (by omega)
  · exact decode?_four rest (by omega) (by omega) (by omega) (by omega) (by omega) (by omega)

end

/-- the bytes of a text spell the text -/
theorem decode?_of_encode {t : Text} {bytes : List UInt8} (h : encode t = .ok bytes) :
    decode? bytes = some t := by
  unfold encode at h
  generalize 0 = offset at h
  induction t generalizing offset bytes with
  | nil =>
    cases h
    rfl
  | cons x t ih =>
    cases x with
    | surrogate => cases h
    | scalar c =>
      rw [encodeWith] at h
      cases further : encodeWith (fun _ => none) (offset + 1) t with
      | error =>
        rw [further] at h
        cases h
      | ok more =>
        rw [further] at h
        cases h
        rw [decode?_encodeNumber, ih _ further]
        rfl

/-- a text without surrogates has bytes -/
theorem exists_encode {t : Text} (h : ∀ x ∈ t, x.isSurrogate = false) : ∃ bytes, encode t = .ok bytes := by
  unfold encode
  generalize 0 = offset
  induction t generalizing offset with
  | nil => exact ⟨[], rfl⟩
  | cons x t ih =>
    obtain ⟨first, others⟩ := List.forall_mem_cons.mp h
    cases x with
    | surrogate => cases first
    | scalar c =>
      obtain ⟨more, further⟩ := ih others (offset + 1)
      exact ⟨encodeNumber c.toNat ++ more, by rw [encodeWith, further]; rfl⟩

/-- a text that has bytes has no surrogates -/
theorem scalar_of_encode {t : Text} {bytes : List UInt8} (h : encode t = .ok bytes) :
    ∀ x ∈ t, x.isSurrogate = false := by
  unfold encode at h
  generalize 0 = offset at h
  induction t generalizing offset bytes with
  | nil => exact List.forall_mem_nil _
  | cons x t ih =>
    cases x with
    | surrogate => cases h
    | scalar c =>
      rw [encodeWith] at h
      cases further : encodeWith (fun _ => none) (offset + 1) t with
      | error =>
        rw [further] at h
        cases h
      | ok more => exact List.forall_mem_cons.mpr ⟨rfl, ih _ further⟩

end Utf8

end Typings
