import Typings.Proofs.Grammar.Items
/-!
# Rows of sets in one number

A row of sets is one number, with a field of so many bits for each set, so that the kernel reads a
set, or adds to one, in a handful of steps.

* `Sheet.get`, `Sheet.put`       read a set, and add to one;
* `Sheet.testBit_get`            the bits of a set;
* `Sheet.inside_put`, `Sheet.testBit_get_put`   adding keeps what is there and adds what it should;
* `Symbol.index`                 a place in a row for each symbol.
-/

namespace Typings

/-! ## Inclusion -/

/-- each element of a set is one of another set -/
def Inside (a b : Nat) : Prop := ∀ k, a.testBit k = true → b.testBit k = true

namespace Inside

theorem refl (a : Nat) : Inside a a := fun _ h => h

theorem trans {a b c : Nat} (h : Inside a b) (g : Inside b c) : Inside a c :=
  fun k hk => g k (h k hk)

theorem or_left (a b : Nat) : Inside a (a ||| b) := fun k h => by rw [Nat.testBit_or, h]; rfl

theorem or_right (a b : Nat) : Inside b (a ||| b) := fun k h => by
  rw [Nat.testBit_or, h, Bool.or_true]

theorem of_or_eq {a b : Nat} (h : a ||| b = b) : Inside a b :=
  (ItemSet.or_eq_left_iff b a).mp (by rw [Nat.lor_comm]; exact h)

end Inside

/-- a number whose lowest bit is its only one has no second one -/
theorem single_bit {x a b : Nat} (h : x &&& (x - 1) = 0) (ha : x.testBit a = true)
    (hb : x.testBit b = true) : a = b := by
  have some : x ≠ 0 := by
    rintro rfl
    rw [Nat.zero_testBit] at ha
    cases ha
  obtain ⟨k, rfl⟩ := (Nat.and_sub_one_eq_zero_iff_isPowerOfTwo some).mp h
  rw [Nat.testBit_two_pow, decide_eq_true_iff] at ha hb
  exact ha.symm.trans hb

/-! ## Rows -/

/-- a row of sets of numbers below a width -/
abbrev Sheet := Nat

namespace Sheet
variable {width : Nat} {sheet : Sheet}

/-- the set at a place of a row -/
def get (width : Nat) (sheet : Sheet) (i : Nat) : Nat := (sheet >>> (width * i)) % 2 ^ width

/-- a row with more elements in the set at a place -/
def put (width : Nat) (sheet : Sheet) (i set : Nat) : Sheet := sheet ||| (set <<< (width * i))

theorem testBit_get (i k : Nat) :
    (get width sheet i).testBit k = (decide (k < width) && sheet.testBit (width * i + k)) := by
  rw [get, Nat.testBit_mod_two_pow, Nat.testBit_shiftRight]

theorem get_mono {other : Sheet} (h : Inside sheet other) (i : Nat) :
    Inside (get width sheet i) (get width other i) := by
  intro k hk
  rw [testBit_get, Bool.and_eq_true] at hk ⊢
  exact ⟨hk.1, h _ hk.2⟩

theorem inside_put (i set : Nat) : Inside sheet (put width sheet i set) := Inside.or_left _ _

/-- an element that is added is there -/
theorem testBit_get_put {i set k : Nat} (hk : set.testBit k = true) (small : k < width) :
    (get width (put width sheet i set) i).testBit k = true := by
  have here : (set <<< (width * i)).testBit (width * i + k) = true := by
    rw [Nat.testBit_shiftLeft, Nat.add_sub_cancel_left, hk, Bool.and_true]
    exact decide_eq_true (Nat.le_add_right _ _)
  rw [testBit_get, decide_eq_true small, Bool.true_and]
  exact Inside.or_right _ _ _ here

end Sheet

/-! ## Places of symbols -/

/-- the place of a phrase in `Nonterminal.all` -/
def Nonterminal.index (n : Nonterminal) : Nat := n.ctorIdx

/-- a place for each symbol, the terminals first -/
def Symbol.index : Symbol → Nat
  | terminal t => t.index
  | nonterminal n => Terminal.all.length + n.index

end Typings
