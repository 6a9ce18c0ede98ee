import Typings.Proofs.Grammar.Beside
/-!
# What a state can do at the end of a production

The items of a state stand side by side.  So what is known about the items beside the end of a
production holds of the states that have it.

* `Automaton.Item.beside`             two items of a state stand side by side;
* `Automaton.Item.complete_unique`    a state has one complete production at most;
* `Production.EndsBefore`             nothing beside the end of a production reads a terminal;
* `Production.endsBefore_of_kept`     so it is behind a production that leaves out no separator, with the
                                      terminals that can come there; behind any production, with those
                                      that a separator may be left out in front of;
* `Automaton.Item.unread`             then a state at the end does not read the terminal.
-/

namespace Typings

namespace Production

/-- no item beside the end of a production reads the terminal -/
def EndsBefore (p : Production) (t : Terminal) : Prop :=
  Beside.items p p.rhs.length &&& Beside.before (.terminal t) = 0

instance (p : Production) (t : Terminal) : Decidable (p.EndsBefore t) := inferInstanceAs (Decidable (_ = 0))

/-- nothing that comes behind a production is read there, if no separator is left out or it is one that a
separator may be left out in front of -/
theorem endsBefore_of_kept {p : Production} {t : Terminal} (mem : p ∈ productions)
    (kept : p ∈ separated ∨ Lookahead.closers.contains t = true)
    (behind : (Lookahead.ahead p.lhs).contains t = true) : p.EndsBefore t := by
  have apart : ∀ {reads}, Inside (Beside.before (.terminal t)) reads →
      Beside.decided (Beside.items p p.rhs.length) reads = true → p.EndsBefore t := by
    intro reads inside decided
    exact eq_of_beq (Bool.and_eq_true_iff.mp (Beside.decided_mono inside decided)).2
  rcases kept with kept | kept
  · exact apart (Beside.before_inside_reading behind) (Beside.decided_ahead kept)
  · refine apart (Beside.before_inside_reading ?_) (Beside.decided_closing mem)
    show (_ &&& _ : Nat).testBit _ = true
    rw [Nat.testBit_and, Bool.and_eq_true]
    exact ⟨behind, kept⟩

end Production

namespace Automaton
open ItemSet

/-- all items of a set stand side by side -/
def SideBySide (set : ItemSet) : Prop :=
  ∀ f p i, Has set f p i → ∀ g q j, Has set g q j → (Beside.items p i).testBit (g + j) = true

/-- items brought in by a dot stand beside all that stands beside the dot -/
theorem sideBySide_of_kernel {set : ItemSet}
    (kernel : ∀ f p i, Has set f p i → ∀ g q j, Has (closure set) g q j →
      (Beside.items p i).testBit (g + j) = true) : SideBySide (closure set) := by
  intro f p i h
  refine closure_induction (Q := fun _ p i => ∀ g q j, Has (closure set) g q j →
    (Beside.items p i).testBit (g + j) = true) kernel (fun f p i f' p' has beside dot _ => ?_) h
  intro g q j other
  have mem := mem_productions_of_numbered has.mem
  rw [Beside.items_zero]
  exact Beside.items_passes mem dot _ (beside g q j other)

theorem sideBySide_start : SideBySide (closure (startsOf .file)) := by
  refine sideBySide_of_kernel fun f p i h g q j other => ?_
  obtain ⟨rfl, lhs⟩ := has_startsOf h
  have all : (Beside.close (Beside.startsOf .file)).testBit (g + j) = true := by
    refine closure_induction (Q := fun g _ j =>
      (Beside.close (Beside.startsOf .file)).testBit (g + j) = true) (fun g q j has => ?_)
      (fun g q j g' q' has bit dot mem => Beside.testBit_close has.mem bit dot mem) other
    obtain ⟨rfl, lhs⟩ := has_startsOf has
    have start := Beside.testBit_startsOf has.mem
    rw [lhs] at start
    exact Beside.inside_close _ _ start
  rw [Beside.items_zero, lhs]
  exact Inside.of_or_eq Beside.contexts_settled.1 _ all

theorem sideBySide_advance {set : ItemSet} {s : Symbol} (h : SideBySide (closure set)) :
    SideBySide (closure (advance set s)) := by
  refine sideBySide_of_kernel fun f p i moved g q j other => ?_
  cases i with
  | zero => exact absurd moved not_has_advance_zero
  | succ i =>
    obtain ⟨has, hi⟩ := has_advance_succ.mp moved
    rw [Beside.items_succ hi]
    refine closure_induction (Q := fun g _ j =>
      (Beside.step (Beside.items p i) s).testBit (g + j) = true) (fun g q j has' => ?_)
      (fun g q j g' q' has bit dot mem => Beside.testBit_close has.mem bit dot mem) other
    cases j with
    | zero => exact absurd has' not_has_advance_zero
    | succ j =>
      obtain ⟨has', hj⟩ := has_advance_succ.mp has'
      exact Beside.testBit_step has'.mem (h f p i has g q j has') hj

namespace Item
variable {state f g i j : Nat} {p q : Production}

/-- two items of a state stand side by side -/
theorem beside (h : Item state f p i) (h' : Item state g q j) :
    (Beside.items p i).testBit (g + j) = true := by
  obtain ⟨k, hk, has⟩ := h
  obtain ⟨k', hk', has'⟩ := h'
  rw [hk] at hk'
  cases hk'
  have all : SideBySide (closure k) :=
    kernels_induction (P := fun k => SideBySide (closure k)) sideBySide_start
      (fun k s h _ => sideBySide_advance h) hk
  exact all f p i has g q j has'

theorem mem_numbered (h : Item state f p i) : (f, p) ∈ numbered := by
  obtain ⟨_, _, has⟩ := h
  exact has.mem

/-- a state has one complete production at most -/
theorem complete_unique (h : Item state f p p.rhs.length) (h' : Item state g q q.rhs.length) :
    p = q := by
  have decided := Beside.decided_closing h.mem_productions
  rw [Beside.decided, Bool.and_eq_true, beq_iff_eq] at decided
  have here : (Beside.items p p.rhs.length &&& Beside.ends).testBit (f + p.rhs.length) = true := by
    rw [Nat.testBit_and, h.beside h, Beside.testBit_ends h.mem_numbered]
    rfl
  have there : (Beside.items p p.rhs.length &&& Beside.ends).testBit (g + q.rhs.length) = true := by
    rw [Nat.testBit_and, h.beside h', Beside.testBit_ends h'.mem_numbered]
    rfl
  have same := single_bit decided.1 here there
  have hp := h.mem_numbered
  have hq := h'.mem_numbered
  rw [numbered] at hp hq
  exact (item_unique hp hq (Nat.le_refl _) (Nat.le_refl _) same).2.1

/-- a state at the end of a production does not read what nothing beside the end reads -/
theorem unread {t : Terminal} (h : Item state f p p.rhs.length) (ends : p.EndsBefore t) :
    next? state (.terminal t) = none := by
  by_contra reads
  obtain ⟨next, step⟩ := Option.ne_none_iff_exists'.mp reads
  obtain ⟨g, q, j, h', hj⟩ := exists_item_of_next step
  exact (and_ne_zero_iff _ _).mpr ⟨_, h.beside h', Beside.testBit_before h'.mem_numbered hj⟩ ends

/-- at the end of a production a state reads none of the terminals that can come behind it, if no
separator is left out or the terminal is one that a separator may be left out in front of -/
theorem not_reads {t : Terminal} (h : Item state f p p.rhs.length)
    (kept : p ∈ separated ∨ Lookahead.closers.contains t = true)
    (behind : (Lookahead.ahead p.lhs).contains t = true) : next? state (.terminal t) = none :=
  h.unread (Production.endsBefore_of_kept h.mem_productions kept behind)

end Item

end Automaton

end Typings
