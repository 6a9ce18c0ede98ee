import Typings.Grammar.Automaton
/-!
# The table and the transitions

What a row of the table says, in terms of the transitions of its state and of the reductions.

* `Automaton.action_shift`     what is read is a transition;
* `Automaton.action_reduce`    what is put in the place of its parts is one of the reductions;
* `Automaton.goto_eq_next?`    the state behind a phrase is a transition.
-/

namespace Typings

section
variable {α β : Type} [BEq α] [LawfulBEq α]

/-- a table made of a list of keys has for each of them the value it was made with -/
theorem lookup_filterMap_keys (keys : List α) (f : α → Option β) (a : α) :
    (keys.filterMap fun k => (f k).map fun v => (k, v)).lookup a
      = if a ∈ keys then f a else none := by
  induction keys with
  | nil => rfl
  | cons k keys ih =>
    rw [List.filterMap_cons]
    by_cases e : a = k
    · subst e
      rw [if_pos List.mem_cons_self]
      cases hf : f a with
      | none =>
        show List.lookup a (keys.filterMap _) = none
        rw [ih, hf, ite_self]
      | some v => exact List.lookup_cons_self
    · have he : (a == k) = false := beq_eq_false_iff_ne.mpr e
      have hmem : a ∈ k :: keys ↔ a ∈ keys := by simp [e]
      simp only [hmem, ← ih]
      cases f k with
      | none => rfl
      | some v =>
        show List.lookup a ((k, v) :: _) = _
        rw [List.lookup_cons, he]

end

namespace Automaton

theorem rows_getElem? (state : Nat) : rows[state]? = (transitions[state]?).map (row state) := by
  rw [rows, List.getElem?_map, List.getElem?_zipIdx, Option.map_map, Nat.zero_add]
  rfl

/-- the action of a row for a terminal -/
def rowAction (state : Nat) (reads : List (Symbol × Nat)) (t : Terminal) : Option Action :=
  match reads.lookup (.terminal t) with
  | some next => some (.shift next)
  | none =>
    ((reductions.filter fun r => r.1 == state).find? fun r => r.2.2.contains t).map fun r =>
      .reduce r.2.1

theorem row_actions (state : Nat) (reads : List (Symbol × Nat)) (t : Terminal) :
    (row state reads).actions.lookup t = rowAction state reads t := by
  have e : (row state reads).actions =
      Terminal.all.filterMap fun t => (rowAction state reads t).map fun a => (t, a) := by
    simp only [row]
    congr 1
    funext t
    unfold rowAction
    cases reads.lookup (.terminal t) with
    | some next => rfl
    | none => exact (Option.map_map ..).symm
  rw [e, lookup_filterMap_keys, if_pos (Terminal.mem_all t)]

theorem row_gotos (state : Nat) (reads : List (Symbol × Nat)) (n : Nonterminal) :
    (row state reads).gotos.lookup n = reads.lookup (.nonterminal n) := by
  show List.lookup n (reads.filterMap _) = _
  induction reads with
  | nil => rfl
  | cons st reads ih =>
    obtain ⟨s, next⟩ := st
    rw [List.filterMap_cons, List.lookup_cons]
    cases s with
    | terminal t => exact ih
    | nonterminal m =>
      show List.lookup n ((m, next) :: _) = _
      rw [List.lookup_cons, ih]
      by_cases e : n = m
      · subst e
        simp
      · have h : (Symbol.nonterminal n == .nonterminal m) = false :=
          beq_eq_false_iff_ne.mpr fun h => e (Symbol.nonterminal.inj h)
        rw [beq_eq_false_iff_ne.mpr e, h]

theorem action_eq (state : Nat) (t : Terminal) :
    action state t = (transitions[state]?).bind fun reads => rowAction state reads t := by
  rw [action, nth?_eq_getElem?, rows_getElem?]
  cases transitions[state]? with
  | none => rfl
  | some reads => exact row_actions state reads t

/-- the state behind a phrase is a transition -/
theorem goto_eq_next? (state : Nat) (n : Nonterminal) :
    goto state n = next? state (.nonterminal n) := by
  rw [goto, nth?_eq_getElem?, rows_getElem?, next?, nth?_eq_getElem?]
  cases transitions[state]? with
  | none => rfl
  | some reads => exact row_gotos state reads n

/-- what is read is a transition -/
theorem action_shift {state next : Nat} {t : Terminal}
    (h : action state t = some (.shift next)) : next? state (.terminal t) = some next := by
  rw [action_eq, Option.bind_eq_some_iff] at h
  obtain ⟨reads, hreads, h⟩ := h
  rw [next?, nth?_eq_getElem?, hreads]
  show reads.lookup (.terminal t) = some next
  unfold rowAction at h
  cases hl : reads.lookup (.terminal t) with
  | some n =>
    rw [hl] at h
    cases h
    rfl
  | none =>
    rw [hl] at h
    obtain ⟨r, _, e⟩ := Option.map_eq_some_iff.mp h
    cases e

/-- what is put in the place of its parts is one of the reductions, for a terminal that can follow -/
theorem action_reduce {state : Nat} {t : Terminal} {p : Production}
    (h : action state t = some (.reduce p)) :
    ∃ set : TerminalSet, (state, p, set) ∈ reductions ∧ set.contains t = true := by
  rw [action_eq, Option.bind_eq_some_iff] at h
  obtain ⟨reads, _, h⟩ := h
  unfold rowAction at h
  cases hl : reads.lookup (.terminal t) with
  | some n =>
    rw [hl] at h
    cases h
  | none =>
    rw [hl] at h
    obtain ⟨⟨s, q, set⟩, found, e⟩ := Option.map_eq_some_iff.mp h
    have hmem := List.mem_filter.mp (List.mem_of_find?_eq_some found)
    have hset := List.find?_some found
    obtain rfl : s = state := eq_of_beq hmem.2
    cases e
    exact ⟨set, hmem.1, hset⟩

/-- a reduction belongs to a place, and leads from there to its state by its right side -/
theorem mem_reductions {state : Nat} {p : Production} {set : TerminalSet}
    (h : (state, p, set) ∈ reductions) :
    p ∈ productions ∧ ∃ start : Nat, ((start, p.lhs), set) ∈ places.zip follows ∧
      walk? start p.rhs = some state := by
  rw [reductions, List.mem_flatMap] at h
  obtain ⟨⟨⟨start, n⟩, set'⟩, hplace, h⟩ := h
  rw [List.mem_filterMap] at h
  obtain ⟨q, hq, h⟩ := h
  split at h
  · rename_i hlhs
    obtain ⟨s, hwalk, e⟩ := Option.map_eq_some_iff.mp h
    cases e
    have hn : p.lhs = n := hlhs
    subst hn
    exact ⟨hq, start, hplace, hwalk⟩
  · cases h

end Automaton

end Typings
