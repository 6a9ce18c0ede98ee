import Mathlib.Data.List.Nodup
import Mathlib.Data.List.Perm.Subperm
import Typings.Proofs.Grammar.States
/-!
# All states are found

The states are visited one after the other, and there are no more of them than sets of items, so the
visits come to an end with every state that a state leads to among those found.

* `Automaton.Discovered`             what holds between two visits;
* `Automaton.kernels_closed`         what a state leads to is a state;
* `Automaton.kernels_induction`      a property of the first state that reading keeps;
* `Automaton.Item.advance`           a dot moves over the symbol that is read.
-/

namespace Typings

/-! ## Item sets are numbers below a bound -/

theorem lt_of_mem_numberedFrom {n first : Nat} {p : Production} {ps : List Production}
    (h : (first, p) ∈ numberedFrom n ps) :
    first + p.rhs.length < n + (ps.map fun p => p.rhs.length + 1).sum := by
  induction ps generalizing n with
  | nil => cases h
  | cons q ps ih =>
    rw [List.map_cons, List.sum_cons]
    rcases List.mem_cons.mp h with e | h
    · cases e
      omega
    · have := ih h
      omega

/-- the number of an item is below the number of items -/
theorem lt_itemCount {first i : Nat} {p : Production} (h : (first, p) ∈ numbered)
    (hi : i ≤ p.rhs.length) : first + i < itemCount := by
  rw [numbered] at h
  have := lt_of_mem_numberedFrom h
  rw [Nat.zero_add] at this
  rw [itemCount, ← List.sum_eq_foldl]
  omega

namespace ItemSet

theorem lt_of_bits {set : ItemSet} (h : ∀ k, set.testBit k = true → k < itemCount) :
    set < 2 ^ itemCount := by
  refine Nat.lt_pow_two_of_testBit set fun k hk => ?_
  cases hb : set.testBit k with
  | false => rfl
  | true => exact absurd (h k hb) (Nat.not_lt.mpr hk)

theorem startsOf_lt (n : Nonterminal) : startsOf n < 2 ^ itemCount := by
  refine lt_of_bits fun k hk => ?_
  obtain ⟨p, mem, _⟩ := (testBit_startsOf n k).mp hk
  exact lt_itemCount mem (Nat.zero_le _)

theorem advance_lt (set : ItemSet) (s : Symbol) : advance set s < 2 ^ itemCount := by
  refine lt_of_bits fun k hk => ?_
  cases k with
  | zero =>
    rw [advance, Nat.testBit_shiftLeft] at hk
    simp at hk
  | succ k =>
    rw [testBit_advance, Bool.and_eq_true] at hk
    obtain ⟨f, p, i, mem, hi, rfl⟩ := (testBit_before s k).mp hk.2
    show f + (i + 1) < itemCount
    exact lt_itemCount mem (List.getElem?_eq_some_iff.mp hi).1

/-- the set that a symbol leads to tells the symbol -/
theorem advance_injective {set : ItemSet} {s t : Symbol} (ne : advance set s ≠ 0)
    (same : advance set s = advance set t) : s = t := by
  obtain ⟨f, p, i, has, hi⟩ := has_before ((advance_ne_zero_iff set s).mp ne)
  have moved := has_advance_succ.mpr ⟨has, hi⟩
  rw [same] at moved
  exact Option.some.inj (hi.symm.trans (has_advance_succ.mp moved).2)

theorem successors_map (set : ItemSet) :
    (successors set).map (·.2) =
      Symbol.all.filterMap fun s => if advance set s = 0 then none else some (advance set s) := by
  rw [successors_eq, List.map_filterMap]
  congr 1
  funext s
  rw [Option.map_map]
  exact Option.map_id' ..

theorem mem_successors {set next : ItemSet} :
    next ∈ (successors set).map (·.2) ↔ ∃ s, advance set s ≠ 0 ∧ advance set s = next := by
  rw [successors_map, List.mem_filterMap]
  constructor
  · rintro ⟨s, _, h⟩
    rw [Option.ite_none_left_eq_some] at h
    exact ⟨s, h.1, Option.some.inj h.2⟩
  · rintro ⟨s, ne, rfl⟩
    exact ⟨s, Symbol.mem_all s, if_neg ne⟩

theorem nodup_successors (set : ItemSet) : ((successors set).map (·.2)).Nodup := by
  rw [successors_map]
  refine List.Nodup.filterMap (fun s t k hs ht => ?_) Symbol.nodup_all
  rw [Option.mem_def, Option.ite_none_left_eq_some] at hs ht
  exact advance_injective hs.1 (Option.some.inj (hs.2.trans ht.2.symm))

end ItemSet

namespace Automaton
open ItemSet

/-! ## Visits -/

/-- between two visits: the states found are those visited and those still to visit, all different,
and the visited ones lead to found ones only -/
structure Discovered (visited todo : List ItemSet) : Prop where
  nodup : (visited ++ todo).Nodup
  bounded : ∀ k ∈ visited ++ todo, k < 2 ^ itemCount
  closed : ∀ k ∈ visited, ∀ s, advance k s ≠ 0 → advance k s ∈ visited ++ todo

/-- there are no more states than sets of items -/
theorem Discovered.length_le {visited todo : List ItemSet} (h : Discovered visited todo) :
    visited.length + todo.length ≤ 2 ^ itemCount := by
  have inside : visited ++ todo ⊆ List.range (2 ^ itemCount) := fun k hk =>
    List.mem_range.mpr (h.bounded k hk)
  have le := (List.subperm_of_subset h.nodup inside).length_le
  rwa [List.length_append, List.length_range] at le

/-- the states that the visit of a state adds -/
def fresh (kernel : ItemSet) (found : List ItemSet) : List ItemSet :=
  ((successors kernel).map (·.2)).filter fun k => !found.contains k

theorem mem_fresh {kernel k : ItemSet} {found : List ItemSet} :
    k ∈ fresh kernel found ↔ (∃ s, advance kernel s ≠ 0 ∧ advance kernel s = k) ∧ k ∉ found := by
  rw [fresh, List.mem_filter, mem_successors, Bool.not_eq_true', List.contains_eq_mem,
    decide_eq_false_iff_not]

theorem visited_append (visited todo new : List ItemSet) (kernel : ItemSet) :
    visited ++ [kernel] ++ (todo ++ new) = (visited ++ kernel :: todo) ++ new := by simp

theorem Discovered.visit {visited todo : List ItemSet} {kernel : ItemSet}
    (h : Discovered visited (kernel :: todo)) :
    Discovered (visited ++ [kernel])
      (todo ++ fresh kernel (visited ++ kernel :: todo)) := by
  have same := visited_append visited todo (fresh kernel (visited ++ kernel :: todo)) kernel
  refine ⟨?_, fun k hk => ?_, fun k hk s ne => ?_⟩
  · rw [same]
    refine h.nodup.append ((nodup_successors kernel).filter _) fun k hk new => ?_
    exact (mem_fresh.mp new).2 hk
  · rw [same] at hk
    rcases List.mem_append.mp hk with hk | new
    · exact h.bounded k hk
    · obtain ⟨⟨s, _, rfl⟩, _⟩ := mem_fresh.mp new
      exact advance_lt kernel s
  · rw [same]
    rcases List.mem_append.mp hk with hk | hk
    · exact List.mem_append_left _ (h.closed k hk s ne)
    · obtain rfl := List.mem_singleton.mp hk
      by_cases old : advance k s ∈ visited ++ k :: todo
      · exact List.mem_append_left _ old
      · exact List.mem_append_right _ (mem_fresh.mpr ⟨⟨s, ne, rfl⟩, old⟩)

/-- with fuel for all that can still be found, the visits come to an end -/
theorem discover_closed {fuel : Nat} {visited todo : List ItemSet} (h : Discovered visited todo)
    (enough : 2 ^ itemCount ≤ fuel + visited.length) :
    ∀ k ∈ discover fuel todo (visited ++ todo), ∀ s, advance k s ≠ 0 →
      advance k s ∈ discover fuel todo (visited ++ todo) := by
  induction fuel generalizing visited todo with
  | zero =>
    have le := h.length_le
    have none : todo = [] := List.length_eq_zero_iff.mp (by omega)
    subst none
    rw [List.append_nil]
    intro k hk s ne
    have := h.closed k hk s ne
    rwa [List.append_nil] at this
  | succ fuel ih =>
    cases todo with
    | nil =>
      rw [List.append_nil]
      intro k hk s ne
      have := h.closed k hk s ne
      rwa [List.append_nil] at this
    | cons kernel todo =>
      have next := ih h.visit (by rw [List.length_append, List.length_singleton]; omega)
      rw [visited_append] at next
      exact next

theorem discovered_start : Discovered [] [startsOf .file] where
  nodup := List.nodup_singleton _
  bounded := fun k hk => by
    obtain rfl := List.mem_singleton.mp hk
    exact startsOf_lt .file
  closed := fun k hk => absurd hk List.not_mem_nil

/-- what a state leads to is a state -/
theorem kernels_closed {k : ItemSet} (hk : k ∈ kernels) {s : Symbol} (ne : advance k s ≠ 0) :
    advance k s ∈ kernels := by
  rw [kernels] at hk ⊢
  exact discover_closed discovered_start (Nat.le_add_right _ _) k hk s ne

/-- what holds of the sets found and is kept by reading a symbol holds of all that is found -/
theorem discover_induction {P : ItemSet → Prop}
    (read : ∀ k s, P k → advance k s ≠ 0 → P (advance k s)) {fuel : Nat}
    {todo found : List ItemSet} (inside : ∀ k ∈ todo, k ∈ found) (h : ∀ k ∈ found, P k) :
    ∀ k ∈ discover fuel todo found, P k := by
  induction fuel generalizing todo found with
  | zero => exact h
  | succ fuel ih =>
    cases todo with
    | nil => exact h
    | cons kernel todo =>
      show ∀ k ∈ discover fuel (todo ++ fresh kernel found) (found ++ fresh kernel found), P k
      refine ih ?_ ?_
      · intro k hk
        rcases List.mem_append.mp hk with hk | hk
        · exact List.mem_append_left _ (inside k (List.mem_cons_of_mem _ hk))
        · exact List.mem_append_right _ hk
      · intro k hk
        rcases List.mem_append.mp hk with hk | hk
        · exact h k hk
        · obtain ⟨⟨s, ne, rfl⟩, _⟩ := mem_fresh.mp hk
          exact read kernel s (h kernel (inside kernel List.mem_cons_self)) ne

theorem kernels_induction {P : ItemSet → Prop} (start : P (startsOf .file))
    (read : ∀ k s, P k → advance k s ≠ 0 → P (advance k s)) {state : Nat} {k : ItemSet}
    (hk : kernels[state]? = some k) : P k := by
  have mem := List.mem_of_getElem? hk
  rw [kernels] at mem
  refine discover_induction read (fun _ h => h) (fun k hk => ?_) k mem
  obtain rfl := List.mem_singleton.mp hk
  exact start

/-! ## Transitions between states -/

theorem kernel_behind {state next : Nat} {s : Symbol} (h : next? state s = some next) :
    ∃ k, kernels[next]? = some k := by
  obtain ⟨k, hk, ne, rfl⟩ := next?_eq_some_iff.mp h
  have mem := kernels_closed (List.mem_of_getElem? hk) ne
  exact ⟨_, List.getElem?_eq_getElem (List.idxOf_lt_length_iff.mpr mem)⟩

theorem kernel_behind_walk {state next : Nat} {symbols : List Symbol} {k : ItemSet}
    (hk : kernels[state]? = some k) (h : walk? state symbols = some next) :
    ∃ k, kernels[next]? = some k := by
  induction symbols generalizing state k with
  | nil =>
    cases h
    exact ⟨k, hk⟩
  | cons s rest ih =>
    obtain ⟨middle, hm, h⟩ := Option.bind_eq_some_iff.mp h
    obtain ⟨k', hk'⟩ := kernel_behind hm
    exact ih hk' h

namespace Item

/-- the dot of an item moves over the symbol that is read -/
theorem advance {state next first i : Nat} {p : Production} {s : Symbol}
    (h : Item state first p i) (hi : p.rhs[i]? = some s) (hs : next? state s = some next) :
    Item next first p (i + 1) := by
  obtain ⟨k, hk⟩ := kernel_behind hs
  exact h.forward hi hs hk

/-- a dot in front of a phrase brings in the left-end items of the phrase -/
theorem enter {state first i : Nat} {p q : Production} (h : Item state first p i)
    (hi : p.rhs[i]? = some (.nonterminal q.lhs)) (mem : q ∈ productions) :
    ∃ f, Item state f q 0 := by
  obtain ⟨k, hk, has⟩ := h
  obtain ⟨f, hf⟩ := exists_numbered mem
  exact ⟨f, k, hk, closure_closed has hi hf⟩

end Item

end Automaton

end Typings
