import Mathlib.Data.Nat.Bitwise
import Typings.Grammar.Items
import Typings.Proofs.Grammar.Table
/-!
# The bits of item sets

What it means for a bit of `before`, `startsOf`, `expansion`, `closure` and `successors` to be set,
in terms of productions and the places of their dots.

* `ItemSet.Has set first p i`      the production `p`, whose items start at `first`, is in the set
                                   with its dot behind `i` symbols;
* `ItemSet.closure_succ`, `closure_zero`, `closure_closed`   the items of a closure;
* `ItemSet.advance`                the set that reading one symbol leads to, and its items.
-/

namespace Typings

/-! ## Numbers of items -/

theorem first_le_of_mem {n f : Nat} {p : Production} {ps : List Production}
    (h : (f, p) ∈ numberedFrom n ps) : n ≤ f := by
  induction ps generalizing n with
  | nil => cases h
  | cons q ps ih =>
    rcases List.mem_cons.mp h with e | h
    · cases e
      exact Nat.le_refl _
    · have := ih h
      omega

/-- the number of an item tells its production and its dot -/
theorem item_unique {n f g i j : Nat} {p q : Production} {ps : List Production}
    (hp : (f, p) ∈ numberedFrom n ps) (hq : (g, q) ∈ numberedFrom n ps)
    (hi : i ≤ p.rhs.length) (hj : j ≤ q.rhs.length) (e : f + i = g + j) :
    f = g ∧ p = q ∧ i = j := by
  induction ps generalizing n with
  | nil => cases hp
  | cons r ps ih =>
    rcases List.mem_cons.mp hp with ep | hp
    · rcases List.mem_cons.mp hq with eq | hq
      · cases ep
        cases eq
        exact ⟨rfl, rfl, Nat.add_left_cancel e⟩
      · -- the items of a later production come behind those of `p`
        have h := first_le_of_mem hq
        cases ep
        omega
    · rcases List.mem_cons.mp hq with eq | hq
      · have h := first_le_of_mem hp
        cases eq
        omega
      · exact ih hp hq

theorem exists_numberedFrom {n : Nat} {p : Production} {ps : List Production} (h : p ∈ ps) :
    ∃ f, (f, p) ∈ numberedFrom n ps := by
  induction ps generalizing n with
  | nil => cases h
  | cons q ps ih =>
    rcases List.mem_cons.mp h with rfl | h
    · exact ⟨n, List.mem_cons_self⟩
    · obtain ⟨f, hf⟩ := ih h
      exact ⟨f, List.mem_cons_of_mem _ hf⟩

theorem mem_of_numberedFrom {n f : Nat} {p : Production} {ps : List Production}
    (h : (f, p) ∈ numberedFrom n ps) : p ∈ ps := by
  induction ps generalizing n with
  | nil => cases h
  | cons q ps ih =>
    rcases List.mem_cons.mp h with e | h
    · cases e
      exact List.mem_cons_self
    · exact List.mem_cons_of_mem _ (ih h)

theorem exists_numbered {p : Production} (h : p ∈ productions) : ∃ f, (f, p) ∈ numbered := by
  rw [numbered]
  exact exists_numberedFrom h

theorem mem_productions_of_numbered {f : Nat} {p : Production} (h : (f, p) ∈ numbered) :
    p ∈ productions := by
  rw [numbered] at h
  exact mem_of_numberedFrom h

/-! ## Bits of unions -/

theorem testBit_foldl_or {α : Type} (l : List α) (g : α → Nat) (a k : Nat) :
    (l.foldl (fun set x => set ||| g x) a).testBit k = true ↔
      a.testBit k = true ∨ ∃ x ∈ l, (g x).testBit k = true := by
  induction l generalizing a with
  | nil => simp
  | cons x l ih =>
    rw [List.foldl_cons, ih, Nat.testBit_or, Bool.or_eq_true, or_assoc]
    simp only [List.mem_cons, exists_eq_or_imp]

theorem foldl_ite_or {α : Type} (l : List α) (c : α → Prop) [DecidablePred c] (g : α → Nat)
    (a : Nat) :
    l.foldl (fun set x => if c x then set ||| g x else set) a
      = l.foldl (fun set x => set ||| if c x then g x else 0) a := by
  congr 1
  funext set x
  by_cases h : c x
  · rw [if_pos h, if_pos h]
  · rw [if_neg h, if_neg h, Nat.or_zero]

theorem testBit_ite {c : Prop} [Decidable c] (n k : Nat) :
    (if c then n else 0).testBit k = true ↔ c ∧ n.testBit k = true := by
  by_cases h : c
  · simp [h]
  · simp [h]

theorem testBit_one_shiftLeft (n k : Nat) : (1 <<< n).testBit k = true ↔ k = n := by
  rw [Nat.one_shiftLeft, Nat.testBit_two_pow, decide_eq_true_iff]
  exact eq_comm

/-- two sets have an element in common -/
theorem and_ne_zero_iff (a b : Nat) :
    a &&& b ≠ 0 ↔ ∃ k, a.testBit k = true ∧ b.testBit k = true := by
  constructor
  · intro h
    obtain ⟨k, hk⟩ := Nat.exists_testBit_of_ne_zero h
    rw [Nat.testBit_and, Bool.and_eq_true] at hk
    exact ⟨k, hk⟩
  · rintro ⟨k, ha, hb⟩ h
    have hk : (a &&& b).testBit k = true := by rw [Nat.testBit_and, ha, hb]; rfl
    rw [h, Nat.zero_testBit] at hk
    cases hk

namespace ItemSet

/-! ## Single sets -/

theorem testBit_beforeIn (s : Symbol) (first k : Nat) (rhs : List Symbol) :
    (beforeIn s first rhs).testBit k = true ↔ ∃ i, rhs[i]? = some s ∧ k = first + i := by
  induction rhs generalizing first with
  | nil => simp [beforeIn]
  | cons x rest ih =>
    rw [beforeIn, Nat.testBit_or, Bool.or_eq_true, testBit_ite, testBit_one_shiftLeft, ih]
    constructor
    · rintro (⟨hx, hk⟩ | ⟨i, hi, hk⟩)
      · exact ⟨0, congrArg some hx, hk⟩
      · exact ⟨i + 1, hi, by omega⟩
    · rintro ⟨i, hi, hk⟩
      cases i with
      | zero => exact .inl ⟨Option.some.inj hi, hk⟩
      | succ i => exact .inr ⟨i, hi, by omega⟩

theorem testBit_before (s : Symbol) (k : Nat) :
    (before s).testBit k = true ↔
      ∃ f p i, (f, p) ∈ numbered ∧ p.rhs[i]? = some s ∧ k = f + i := by
  rw [before, testBit_foldl_or]
  simp only [Nat.zero_testBit, Bool.false_eq_true, false_or, testBit_beforeIn]
  constructor
  · rintro ⟨⟨f, p⟩, mem, i, hi, hk⟩
    exact ⟨f, p, i, mem, hi, hk⟩
  · rintro ⟨f, p, i, mem, hi, hk⟩
    exact ⟨(f, p), mem, i, hi, hk⟩

theorem testBit_startsOf (n : Nonterminal) (k : Nat) :
    (startsOf n).testBit k = true ↔ ∃ p, (k, p) ∈ numbered ∧ p.lhs = n := by
  rw [startsOf, foldl_ite_or, testBit_foldl_or]
  simp only [Nat.zero_testBit, Bool.false_eq_true, false_or, testBit_ite, testBit_one_shiftLeft]
  constructor
  · rintro ⟨⟨f, p⟩, mem, lhs, rfl⟩
    exact ⟨p, mem, lhs⟩
  · rintro ⟨p, mem, lhs⟩
    exact ⟨(k, p), mem, lhs, rfl⟩

/-- a set with the second sets of those pairs whose first sets it meets -/
theorem testBit_foldl_meets (rows : List (ItemSet × ItemSet)) (set k : Nat) :
    (rows.foldl (fun acc p => if set &&& p.1 = 0 then acc else acc ||| p.2) set).testBit k = true ↔
      set.testBit k = true ∨ ∃ r ∈ rows, set &&& r.1 ≠ 0 ∧ r.2.testBit k = true := by
  have e : (fun (acc : Nat) (p : Nat × Nat) => if set &&& p.1 = 0 then acc else acc ||| p.2)
      = fun acc p => acc ||| if set &&& p.1 ≠ 0 then p.2 else 0 := by
    funext acc p
    by_cases h : set &&& p.1 = 0
    · rw [if_pos h, if_neg (not_not.mpr h), Nat.or_zero]
    · rw [if_neg h, if_pos h]
  rw [e, testBit_foldl_or]
  simp only [testBit_ite]

theorem testBit_foldl_phrases (set k : Nat) (g : Nonterminal → Nat) :
    ((Nonterminal.all.map fun n => (before (.nonterminal n), g n)).foldl
        (fun acc p => if set &&& p.1 = 0 then acc else acc ||| p.2) set).testBit k = true ↔
      set.testBit k = true ∨
        ∃ n, set &&& before (.nonterminal n) ≠ 0 ∧ (g n).testBit k = true := by
  rw [testBit_foldl_meets]
  simp only [List.mem_map]
  constructor
  · rintro (h | ⟨p, ⟨n, _, rfl⟩, h⟩)
    · exact .inl h
    · exact .inr ⟨n, h⟩
  · rintro (h | ⟨n, h⟩)
    · exact .inl h
    · exact .inr ⟨_, ⟨n, Nonterminal.mem_all n, rfl⟩, h⟩

theorem testBit_widen (set k : Nat) :
    (widen set).testBit k = true ↔ set.testBit k = true ∨
      ∃ n, set &&& before (.nonterminal n) ≠ 0 ∧ (startsOf n).testBit k = true :=
  testBit_foldl_phrases set k startsOf

theorem testBit_closure (set k : Nat) :
    (closure set).testBit k = true ↔ set.testBit k = true ∨
      ∃ n, set &&& before (.nonterminal n) ≠ 0 ∧ (expansion n).testBit k = true :=
  testBit_foldl_phrases set k expansion

/-! ## Saturation -/

theorem testBit_widen_of {set k : Nat} (h : set.testBit k = true) :
    (widen set).testBit k = true := (testBit_widen set k).mpr (.inl h)

theorem testBit_saturate_of {fuel set k : Nat} (h : set.testBit k = true) :
    (saturate fuel set).testBit k = true := by
  induction fuel generalizing set with
  | zero => exact h
  | succ fuel ih =>
    simp only [saturate]
    split
    · exact h
    · exact ih (testBit_widen_of h)

/-- every item of a saturated set was there before, or it was brought in by a dot of the set -/
theorem testBit_saturate {fuel set k : Nat} (h : (saturate fuel set).testBit k = true) :
    set.testBit k = true ∨
      ∃ n, saturate fuel set &&& before (.nonterminal n) ≠ 0 ∧ (startsOf n).testBit k = true := by
  induction fuel generalizing set with
  | zero => exact .inl h
  | succ fuel ih =>
    simp only [saturate] at h ⊢
    split at h
    · exact .inl h
    · rename_i grows
      rw [if_neg grows]
      rcases ih h with h | h
      · rcases (testBit_widen set k).mp h with h | ⟨n, meet, start⟩
        · exact .inl h
        · obtain ⟨j, hj, hb⟩ := (and_ne_zero_iff _ _).mp meet
          have hj : (saturate fuel (widen set)).testBit j = true :=
            testBit_saturate_of (testBit_widen_of hj)
          exact .inr ⟨n, (and_ne_zero_iff _ _).mpr ⟨j, hj, hb⟩, start⟩
      · exact .inr h

/-- what holds of a set, and is handed on by a dot to the left-end items that it brings in -/
theorem saturate_induction {R : Nat → Prop} (hand : ∀ j n k, R j →
      (before (.nonterminal n)).testBit j = true → (startsOf n).testBit k = true → R k)
    {fuel set : Nat} (h : ∀ k, set.testBit k = true → R k) :
    ∀ k, (saturate fuel set).testBit k = true → R k := by
  induction fuel generalizing set with
  | zero => exact h
  | succ fuel ih =>
    simp only [saturate]
    split
    · exact h
    · refine ih fun k hk => ?_
      rcases (testBit_widen set k).mp hk with hk | ⟨n, meet, start⟩
      · exact h k hk
      · obtain ⟨j, hj, hb⟩ := (and_ne_zero_iff _ _).mp meet
        exact hand j n k (h j hj) hb start

/-- the phrases whose left-end items are not all in a set -/
def missing (set : ItemSet) : Nat :=
  Nonterminal.all.countP fun n => !(set ||| startsOf n == set)

theorem or_eq_left_iff (a b : Nat) :
    a ||| b = a ↔ ∀ k, b.testBit k = true → a.testBit k = true := by
  constructor
  · intro h k hk
    rw [← h, Nat.testBit_or, hk, Bool.or_true]
  · intro h
    apply Nat.eq_of_testBit_eq
    intro k
    rw [Nat.testBit_or]
    cases hb : b.testBit k with
    | false => exact Bool.or_false _
    | true => rw [h k hb]; rfl

theorem countP_lt {α : Type} {l : List α} {p q : α → Bool} (le : ∀ x ∈ l, p x = true → q x = true)
    {a : α} (mem : a ∈ l) (hq : q a = true) (hp : p a = false) : l.countP p < l.countP q := by
  induction l with
  | nil => cases mem
  | cons x l ih =>
    have rest := List.countP_mono_left (fun y hy => le y (List.mem_cons_of_mem x hy))
    rw [List.countP_cons, List.countP_cons]
    rcases List.mem_cons.mp mem with rfl | mem
    · rw [hq, hp]
      simp only [Bool.false_eq_true, if_false, if_true]
      omega
    · have strict := ih (fun y hy => le y (List.mem_cons_of_mem x hy)) mem
      have here := le x List.mem_cons_self
      cases hx : p x with
      | false =>
        simp only [Bool.false_eq_true, if_false]
        omega
      | true =>
        rw [here hx]
        simp only [if_true]
        omega

/-- a round that adds an item adds all left-end items of some phrase -/
theorem missing_widen_lt {set : ItemSet} (h : widen set ≠ set) :
    missing (widen set) < missing set := by
  have new : ∃ k, (widen set).testBit k = true ∧ set.testBit k = false := by
    by_contra none
    apply h
    apply Nat.eq_of_testBit_eq
    intro k
    cases hs : set.testBit k with
    | true => exact testBit_widen_of hs
    | false =>
      cases hw : (widen set).testBit k with
      | false => rfl
      | true => exact absurd ⟨k, hw, hs⟩ none
  obtain ⟨k, hw, hs⟩ := new
  rcases (testBit_widen set k).mp hw with hw | ⟨n, meet, start⟩
  · rw [hs] at hw
    cases hw
  · refine countP_lt (fun m _ hm => ?_) (Nonterminal.mem_all n) ?_ ?_
    · simp only [Bool.not_eq_true', beq_eq_false_iff_ne, ne_eq, or_eq_left_iff] at hm ⊢
      exact fun all => hm fun j hj => testBit_widen_of (all j hj)
    · simp only [Bool.not_eq_true', beq_eq_false_iff_ne, ne_eq, or_eq_left_iff]
      intro all
      rw [all k start] at hs
      cases hs
    · simp only [Bool.not_eq_false', beq_iff_eq, or_eq_left_iff]
      exact fun j hj => (testBit_widen set j).mpr (.inr ⟨n, meet, hj⟩)

theorem widen_saturate {fuel : Nat} {set : ItemSet} (h : missing set ≤ fuel) :
    widen (saturate fuel set) = saturate fuel set := by
  induction fuel generalizing set with
  | zero =>
    by_contra grows
    have := missing_widen_lt grows
    simp only [saturate] at this
    omega
  | succ fuel ih =>
    simp only [saturate]
    split
    · assumption
    · rename_i grows
      have := missing_widen_lt grows
      exact ih (by omega)

theorem widen_expansion (n : Nonterminal) : widen (expansion n) = expansion n :=
  widen_saturate List.countP_le_length

/-! ## Items of a closure -/

/-- a production whose items start at a number is in a set, with its dot behind `i` symbols -/
structure Has (set : ItemSet) (first : Nat) (p : Production) (i : Nat) : Prop where
  mem : (first, p) ∈ numbered
  le : i ≤ p.rhs.length
  bit : set.testBit (first + i) = true

/-- the number of a left-end item is not that of an item whose dot has moved -/
theorem ne_start {first g i : Nat} {p q : Production} (hp : (first, p) ∈ numbered)
    (hi : i + 1 ≤ p.rhs.length) (hq : (g, q) ∈ numbered) : first + (i + 1) ≠ g := by
  rw [numbered] at hp hq
  intro e
  obtain ⟨_, _, h⟩ := item_unique hp hq hi (Nat.zero_le _) e
  cases h

theorem testBit_before_of_has {set : ItemSet} {first i : Nat} {p : Production} {s : Symbol}
    (h : Has set first p i) : (before s).testBit (first + i) = true ↔ p.rhs[i]? = some s := by
  rw [testBit_before]
  constructor
  · rintro ⟨f, q, j, mem, hj, e⟩
    have hp := h.mem
    rw [numbered] at hp mem
    have hlen := (List.getElem?_eq_some_iff.mp hj).1
    obtain ⟨_, rfl, rfl⟩ := item_unique hp mem h.le (Nat.le_of_lt hlen) e
    exact hj
  · intro hi
    exact ⟨first, p, i, h.mem, hi, rfl⟩

theorem has_before {set : ItemSet} {s : Symbol} (h : set &&& before s ≠ 0) :
    ∃ f p i, Has set f p i ∧ p.rhs[i]? = some s := by
  obtain ⟨k, hk, hb⟩ := (and_ne_zero_iff _ _).mp h
  obtain ⟨f, p, i, mem, hi, rfl⟩ := (testBit_before s k).mp hb
  exact ⟨f, p, i, ⟨mem, Nat.le_of_lt (List.getElem?_eq_some_iff.mp hi).1, hk⟩, hi⟩

theorem and_before_ne_zero {set : ItemSet} {f i : Nat} {p : Production} {s : Symbol}
    (h : Has set f p i) (hi : p.rhs[i]? = some s) : set &&& before s ≠ 0 :=
  (and_ne_zero_iff _ _).mpr ⟨f + i, h.bit, (testBit_before_of_has h).mpr hi⟩

/-- the items of an expansion have their dot at the left end -/
theorem start_of_expansion {n : Nonterminal} {k : Nat} (h : (expansion n).testBit k = true) :
    ∃ q, (k, q) ∈ numbered := by
  rcases testBit_saturate h with h | ⟨m, _, h⟩
  · obtain ⟨q, mem, _⟩ := (testBit_startsOf _ k).mp h
    exact ⟨q, mem⟩
  · obtain ⟨q, mem, _⟩ := (testBit_startsOf _ k).mp h
    exact ⟨q, mem⟩

/-- an item whose dot has moved is not brought in by a closure -/
theorem closure_succ {set : ItemSet} {first i : Nat} {p : Production}
    (h : Has (closure set) first p (i + 1)) : Has set first p (i + 1) := by
  refine ⟨h.mem, h.le, ?_⟩
  rcases (testBit_closure _ _).mp h.bit with hk | ⟨n, _, hk⟩
  · exact hk
  · obtain ⟨q, mem⟩ := start_of_expansion hk
    exact absurd rfl (ne_start h.mem h.le mem)

theorem has_closure_of_expansion {set : ItemSet} {n : Nonterminal} {f i : Nat} {q : Production}
    (meet : set &&& before (.nonterminal n) ≠ 0) (h : Has (expansion n) f q i) :
    Has (closure set) f q i :=
  ⟨h.mem, h.le, (testBit_closure _ _).mpr (.inr ⟨n, meet, h.bit⟩)⟩

theorem has_closure {set : ItemSet} {f i : Nat} {q : Production} (h : Has set f q i) :
    Has (closure set) f q i := ⟨h.mem, h.le, (testBit_closure _ _).mpr (.inl h.bit)⟩

/-- a left-end item of a closure was there before, or some dot stands in front of its phrase -/
theorem closure_zero {set : ItemSet} {first : Nat} {p : Production}
    (h : Has (closure set) first p 0) :
    Has set first p 0 ∨
      ∃ f q j, Has (closure set) f q j ∧ q.rhs[j]? = some (.nonterminal p.lhs) := by
  rcases (testBit_closure _ _).mp h.bit with hk | ⟨n, meet, hk⟩
  · exact .inl ⟨h.mem, h.le, hk⟩
  · right
    have lhs_of_start : ∀ m, (startsOf m).testBit (first + 0) = true → p.lhs = m := by
      intro m hm
      obtain ⟨q, mem, lhs⟩ := (testBit_startsOf m _).mp hm
      have hp := h.mem
      rw [numbered] at hp mem
      obtain ⟨_, rfl, _⟩ := item_unique hp mem h.le (Nat.zero_le _) rfl
      exact lhs
    rcases testBit_saturate hk with hn | ⟨m, meet', hm⟩
    · rw [lhs_of_start n hn]
      obtain ⟨f, q, j, has, hj⟩ := has_before meet
      exact ⟨f, q, j, has_closure has, hj⟩
    · rw [lhs_of_start m hm]
      obtain ⟨f, q, j, has, hj⟩ := has_before meet'
      exact ⟨f, q, j, has_closure_of_expansion meet has, hj⟩

/-- a closure has the left-end items of every phrase that one of its dots stands in front of -/
theorem closure_closed {set : ItemSet} {f first j : Nat} {p q : Production}
    (h : Has (closure set) f q j) (hj : q.rhs[j]? = some (.nonterminal p.lhs))
    (mem : (first, p) ∈ numbered) : Has (closure set) first p 0 := by
  have start : (startsOf p.lhs).testBit first = true := (testBit_startsOf _ _).mpr ⟨p, mem, rfl⟩
  rcases (testBit_closure _ _).mp h.bit with hk | ⟨n, meet, hk⟩
  · have meet := and_before_ne_zero ⟨h.mem, h.le, hk⟩ hj
    exact has_closure_of_expansion meet ⟨mem, Nat.zero_le _, testBit_saturate_of start⟩
  · have meet' := and_before_ne_zero ⟨h.mem, h.le, hk⟩ hj
    have inside : (expansion n).testBit first = true := by
      rw [← widen_expansion n]
      exact (testBit_widen _ _).mpr (.inr ⟨p.lhs, meet', start⟩)
    exact has_closure_of_expansion meet ⟨mem, Nat.zero_le _, inside⟩

/-- what holds of a set, and is handed on by a dot to the left-end items of the phrase behind it,
holds of all that the dots of the set bring in -/
theorem closure_induction {set : ItemSet} {Q : Nat → Production → Nat → Prop}
    (here : ∀ f p i, Has set f p i → Q f p i)
    (hand : ∀ f p i g q, Has (closure set) f p i → Q f p i →
      p.rhs[i]? = some (.nonterminal q.lhs) → (g, q) ∈ numbered → Q g q 0)
    {f i : Nat} {p : Production} (h : Has (closure set) f p i) : Q f p i := by
  rcases (testBit_closure _ _).mp h.bit with hk | ⟨n, meet, hk⟩
  · exact here f p i ⟨h.mem, h.le, hk⟩
  · have all : ∀ k, (expansion n).testBit k = true →
        ∃ q, (k, q) ∈ numbered ∧ Has (closure set) k q 0 ∧ Q k q 0 := by
      refine saturate_induction (fun j m k old dot start => ?_) fun k start => ?_
      · obtain ⟨q, _, has, hq⟩ := old
        obtain ⟨r, mem, rfl⟩ := (testBit_startsOf m k).mp start
        have next := (testBit_before_of_has has).mp dot
        exact ⟨r, mem, closure_closed has next mem, hand _ _ _ _ _ has hq next mem⟩
      · obtain ⟨q, mem, rfl⟩ := (testBit_startsOf n k).mp start
        obtain ⟨g, r, j, has, next⟩ := has_before meet
        have has' := has_closure has
        exact ⟨q, mem, closure_closed has' next mem, hand _ _ _ _ _ has' (here _ _ _ has) next mem⟩
    obtain ⟨q, mem, _, hq⟩ := all _ hk
    have hp := h.mem
    rw [numbered] at hp mem
    obtain ⟨same, rfl, rfl⟩ := item_unique hp mem h.le (Nat.zero_le _) rfl
    exact same ▸ hq

/-- the left-end items of a phrase -/
theorem has_startsOf {n : Nonterminal} {f i : Nat} {p : Production} (h : Has (startsOf n) f p i) :
    i = 0 ∧ p.lhs = n := by
  obtain ⟨q, mem, lhs⟩ := (testBit_startsOf _ _).mp h.bit
  have hp := h.mem
  rw [numbered] at hp mem
  obtain ⟨_, rfl, rfl⟩ := item_unique hp mem h.le (Nat.zero_le _) rfl
  exact ⟨rfl, lhs⟩

/-! ## Reading a symbol -/

/-- the items behind a symbol that is read -/
def advance (set : ItemSet) (s : Symbol) : ItemSet := (closure set &&& before s) <<< 1

theorem advance_ne_zero_iff (set : ItemSet) (s : Symbol) :
    advance set s ≠ 0 ↔ closure set &&& before s ≠ 0 := by
  rw [advance, Nat.shiftLeft_eq]
  constructor
  · intro h e
    rw [e] at h
    exact h (Nat.zero_mul _)
  · intro h
    exact Nat.mul_ne_zero h (by decide)

theorem successors_eq (set : ItemSet) :
    successors set = Symbol.all.filterMap fun s =>
      (if advance set s = 0 then none else some (advance set s)).map fun k => (s, k) := by
  rw [successors, befores, List.filterMap_map]
  congr 1
  funext s
  show (if closure set &&& before s = 0 then none else some (s, advance set s)) = _
  by_cases h : closure set &&& before s = 0
  · rw [if_pos h, if_pos (not_not.mp fun ne => (advance_ne_zero_iff set s).mp ne h)]
    rfl
  · rw [if_neg h, if_neg ((advance_ne_zero_iff set s).mpr h)]
    rfl

theorem successors_lookup (set : ItemSet) (s : Symbol) :
    (successors set).lookup s = if advance set s = 0 then none else some (advance set s) := by
  rw [successors_eq, lookup_filterMap_keys, if_pos (Symbol.mem_all s)]

theorem testBit_advance (set : ItemSet) (s : Symbol) (k : Nat) :
    (advance set s).testBit (k + 1) = ((closure set).testBit k && (before s).testBit k) := by
  rw [advance, Nat.testBit_shiftLeft, Nat.testBit_and]
  simp

/-- the dots move behind the symbol that is read, and no others are there -/
theorem has_advance_succ {set : ItemSet} {s : Symbol} {first i : Nat} {p : Production} :
    Has (advance set s) first p (i + 1) ↔ Has (closure set) first p i ∧ p.rhs[i]? = some s := by
  constructor
  · intro h
    have bit := h.bit
    rw [← Nat.add_assoc, testBit_advance, Bool.and_eq_true] at bit
    have has : Has (closure set) first p i := ⟨h.mem, Nat.le_of_succ_le h.le, bit.1⟩
    exact ⟨has, (testBit_before_of_has has).mp bit.2⟩
  · rintro ⟨h, hi⟩
    refine ⟨h.mem, (List.getElem?_eq_some_iff.mp hi).1, ?_⟩
    rw [← Nat.add_assoc, testBit_advance, h.bit, (testBit_before_of_has h).mpr hi]
    rfl

/-- behind a symbol that is read no dot is at the left end -/
theorem not_has_advance_zero {set : ItemSet} {s : Symbol} {first : Nat} {p : Production} :
    ¬ Has (advance set s) first p 0 := by
  intro h
  have bit := h.bit
  cases first with
  | zero =>
    rw [advance, Nat.testBit_shiftLeft] at bit
    simp at bit
  | succ f =>
    rw [Nat.add_zero, testBit_advance, Bool.and_eq_true] at bit
    obtain ⟨g, q, i, mem, hi, e⟩ := (testBit_before s f).mp bit.2
    have hlen := (List.getElem?_eq_some_iff.mp hi).1
    exact ne_start mem hlen h.mem (by omega)

end ItemSet

end Typings
