import Typings.Proofs.Grammar.Discovery
import Typings.Proofs.Grammar.Lookaheads
/-!
# Items that stand side by side

Two items stand side by side if a state has both.  The items beside an item depend on its production
and its dot: those at the left end of a phrase stand beside all that stands beside a dot in front of
the phrase, and reading a symbol moves the dots of all of them.  So there is a table of what stands
beside the left end of each phrase; it is computed, and checked to be closed.

* `Beside.before`, `startsOf`, `ends`     rows of items, computed at once;
* `Beside.endsBefore`                    the right ends of phrases in front of a terminal;
* `Beside.step`                          what reading a symbol leads to;
* `Beside.context`                       what stands beside the left end of a phrase;
* `Beside.items`                         what stands beside a dot in a production;
* `Beside.contexts_settled`              the table is closed, and at the end of each production no
                                         other one ends and nothing is read that comes behind it.
-/

namespace Typings

namespace Beside
open ItemSet (testBit_foldl_meets)

/-! ## Rows of items

All sets here hold the items they should; that they hold no others is never needed. -/

/-- mark the items of a right side whose first one is `first`, each in the set of the next symbol -/
def mark (first : Nat) : List Symbol → Sheet → Sheet
  | [], sheet => sheet
  | s :: rest, sheet => (mark (first + 1) rest sheet).put itemCount s.index (1 <<< first)

@[irreducible] def befores : Sheet := numbered.foldr (fun np sheet => mark np.1 np.2.rhs sheet) 0

/-- the items with the dot in front of a symbol -/
def before (s : Symbol) : ItemSet := befores.get itemCount s.index

@[irreducible] def starts : Sheet :=
  numbered.foldr (fun np sheet => sheet.put itemCount np.2.lhs.index (1 <<< np.1)) 0

/-- the items of a phrase with the dot at the left end -/
def startsOf (n : Nonterminal) : ItemSet := starts.get itemCount n.index

/-- the items with the dot at the right end -/
@[irreducible] def ends : ItemSet :=
  numbered.foldr (fun np set => set ||| (1 <<< (np.1 + np.2.rhs.length))) 0

/-- for each phrase, the items with the dot at its right end -/
@[irreducible] def endings : Sheet := numbered.foldr (fun np sheet =>
  sheet.put itemCount np.2.lhs.index (1 <<< (np.1 + np.2.rhs.length))) 0

/-- the items with the dot at the right end of a phrase that a terminal can follow -/
def endsBefore (t : Terminal) : ItemSet := Nonterminal.all.foldr (fun n set =>
  if (Lookahead.follow n).contains t then set ||| endings.get itemCount n.index else set) 0

/-- the items with the dot in front of one of some terminals -/
def reading (terminals : TerminalSet) : ItemSet :=
  Terminal.all.foldr (fun t set =>
    if terminals.contains t then set ||| before (.terminal t) else set) 0

/-- the items with the dot in front of a phrase -/
@[irreducible] def opens : ItemSet :=
  Nonterminal.all.foldr (fun n set => set ||| before (.nonterminal n)) 0

theorem exists_inside_foldr {α : Type} {f : α → Nat → Nat} (grows : ∀ x set, Inside set (f x set))
    {l : List α} (init : Nat) {x : α} (mem : x ∈ l) : ∃ set, Inside (f x set) (l.foldr f init) := by
  induction l with
  | nil => cases mem
  | cons y l ih =>
    rcases List.mem_cons.mp mem with rfl | mem
    · exact ⟨_, .refl _⟩
    · obtain ⟨set, h⟩ := ih mem
      exact ⟨set, h.trans (grows y _)⟩

section
variable {first : Nat} {p : Production}

theorem inside_mark (rhs : List Symbol) (first : Nat) (sheet : Sheet) :
    Inside sheet (mark first rhs sheet) := by
  induction rhs generalizing first with
  | nil => exact .refl _
  | cons s rest ih => exact (ih (first + 1)).trans (Sheet.inside_put _ _)

theorem testBit_mark {rhs : List Symbol} {i : Nat} {s : Symbol} (sheet : Sheet)
    (hi : rhs[i]? = some s) (small : first + i < itemCount) :
    ((mark first rhs sheet).get itemCount s.index).testBit (first + i) = true := by
  induction rhs generalizing first i with
  | nil => cases hi
  | cons x rest ih =>
    cases i with
    | zero =>
      cases hi
      exact Sheet.testBit_get_put ((testBit_one_shiftLeft _ _).mpr rfl) small
    | succ i =>
      have small' : first + 1 + i < itemCount := by omega
      have later := ih hi small'
      rw [Nat.add_assoc, Nat.add_comm 1] at later
      exact Sheet.get_mono (Sheet.inside_put _ _) _ _ later

theorem testBit_before {i : Nat} {s : Symbol} (mem : (first, p) ∈ numbered)
    (hi : p.rhs[i]? = some s) : (before s).testBit (first + i) = true := by
  have hlen := (List.getElem?_eq_some_iff.mp hi).1
  obtain ⟨sheet, inside⟩ := exists_inside_foldr (f := fun (np : Nat × Production) sheet =>
    mark np.1 np.2.rhs sheet) (fun np sheet => inside_mark _ _ sheet) 0 mem
  unfold before
  rw [befores]
  exact Sheet.get_mono inside _ _ (testBit_mark sheet hi (lt_itemCount mem (Nat.le_of_lt hlen)))

theorem testBit_startsOf (mem : (first, p) ∈ numbered) : (startsOf p.lhs).testBit first = true := by
  obtain ⟨sheet, inside⟩ := exists_inside_foldr (f := fun (np : Nat × Production) sheet =>
    Sheet.put itemCount sheet np.2.lhs.index (1 <<< np.1)) (fun np sheet => Sheet.inside_put _ _) 0 mem
  unfold startsOf
  rw [starts]
  exact Sheet.get_mono inside _ _ (Sheet.testBit_get_put ((testBit_one_shiftLeft _ _).mpr rfl)
    (lt_itemCount mem (Nat.zero_le _)))

theorem testBit_ends (mem : (first, p) ∈ numbered) :
    ends.testBit (first + p.rhs.length) = true := by
  obtain ⟨set, inside⟩ := exists_inside_foldr (f := fun (np : Nat × Production) set =>
    set ||| (1 <<< (np.1 + np.2.rhs.length))) (fun np set => .or_left _ _) 0 mem
  rw [ends]
  exact inside _ (Inside.or_right _ _ _ ((testBit_one_shiftLeft _ _).mpr rfl))

theorem testBit_endsBefore {t : Terminal} (mem : (first, p) ∈ numbered)
    (follows : (Lookahead.follow p.lhs).contains t = true) :
    (endsBefore t).testBit (first + p.rhs.length) = true := by
  obtain ⟨sheet, here⟩ := exists_inside_foldr (f := fun (np : Nat × Production) sheet =>
    Sheet.put itemCount sheet np.2.lhs.index (1 <<< (np.1 + np.2.rhs.length)))
    (fun np sheet => Sheet.inside_put _ _) 0 mem
  obtain ⟨set, inside⟩ := exists_inside_foldr (f := fun n set =>
    if (Lookahead.follow n).contains t then set ||| endings.get itemCount n.index else set)
    (fun n set => by
      split
      · exact .or_left _ _
      · exact .refl _) 0 p.lhs.mem_all
  rw [if_pos follows] at inside
  refine inside _ (Inside.or_right _ _ _ ?_)
  unfold endings
  exact Sheet.get_mono here _ _ (Sheet.testBit_get_put ((testBit_one_shiftLeft _ _).mpr rfl)
    (lt_itemCount mem (Nat.le_refl _)))

theorem before_inside_opens (n : Nonterminal) : Inside (before (.nonterminal n)) opens := by
  obtain ⟨set, inside⟩ := exists_inside_foldr (f := fun n set => set ||| before (.nonterminal n))
    (fun n set => .or_left _ _) 0 n.mem_all
  unfold opens
  exact (Inside.or_right set (before (.nonterminal n))).trans inside

theorem before_inside_reading {terminals : TerminalSet} {t : Terminal}
    (h : terminals.contains t = true) : Inside (before (.terminal t)) (reading terminals) := by
  obtain ⟨set, inside⟩ := exists_inside_foldr (f := fun t set =>
    if terminals.contains t then set ||| before (.terminal t) else set)
    (fun t set => by
      split
      · exact .or_left _ _
      · exact .refl _) 0 t.mem_all
  rw [if_pos h] at inside
  exact (Inside.or_right set (before (.terminal t))).trans inside

end

/-! ## What dots bring in -/

/-- every phrase, as the items in front of it and its set in a row -/
def phrases (sheet : Sheet) : List (ItemSet × ItemSet) :=
  Nonterminal.all.map fun n => (before (.nonterminal n), sheet.get itemCount n.index)

/-- a set with the second sets of those pairs whose first sets it meets -/
def gather (rows : List (ItemSet × ItemSet)) (set : ItemSet) : ItemSet :=
  rows.foldl (fun acc r => bif Nat.beq (set &&& r.1) 0 then acc else acc ||| r.2) set

theorem testBit_gather (rows : List (ItemSet × ItemSet)) (set k : Nat) :
    (gather rows set).testBit k = true ↔
      set.testBit k = true ∨ ∃ r ∈ rows, set &&& r.1 ≠ 0 ∧ r.2.testBit k = true := by
  have e : (fun (acc : Nat) (r : Nat × Nat) => bif Nat.beq (set &&& r.1) 0 then acc else acc ||| r.2) =
      fun acc r => if set &&& r.1 = 0 then acc else acc ||| r.2 := by
    funext acc r
    by_cases h : set &&& r.1 = 0
    · rw [if_pos h, h]
      rfl
    · have other : Nat.beq (set &&& r.1) 0 = false := Bool.eq_false_iff.mpr fun same => h (Nat.eq_of_beq_eq_true same)
      rw [if_neg h, other]
      rfl
  rw [gather, e]
  exact testBit_foldl_meets rows set k

/-- for each phrase, also what the dots of its set bring in -/
def widen (sheet : Sheet) : Sheet :=
  Nonterminal.all.foldr (fun n wider =>
    wider.put itemCount n.index (gather (phrases sheet) (sheet.get itemCount n.index))) sheet

@[irreducible] def broughts : Sheet := widen (widen (widen starts))

/-- what a dot in front of a phrase brings in -/
def brought (n : Nonterminal) : ItemSet := broughts.get itemCount n.index

/-- a set and what its dots bring in -/
def close (set : ItemSet) : ItemSet := if set &&& opens = 0 then set else gather (phrases broughts) set

/-- what reading a symbol leads to -/
def step (set : ItemSet) (s : Symbol) : ItemSet := close ((set &&& before s) <<< 1)

theorem brought_closed : ∀ n ∈ Nonterminal.all,
    startsOf n ||| brought n = brought n ∧ gather (phrases broughts) (brought n) = brought n := by
  decide +kernel

/-- what a dot in front of a phrase brings in is in the set -/
theorem inside_gather {set : ItemSet} {n : Nonterminal} {k : Nat} (hk : set.testBit k = true)
    (hn : (before (.nonterminal n)).testBit k = true) :
    Inside (brought n) (gather (phrases broughts) set) := by
  intro j hj
  refine (testBit_gather _ _ _).mpr (.inr ⟨_, List.mem_map_of_mem n.mem_all, ?_, hj⟩)
  exact (and_ne_zero_iff _ _).mpr ⟨k, hk, hn⟩

theorem inside_close (set : ItemSet) : Inside set (close set) := by
  unfold close
  split
  · exact .refl _
  · exact fun k hk => (testBit_gather _ _ _).mpr (.inl hk)

section
variable {set : ItemSet} {first i : Nat} {p : Production}

theorem testBit_close {g : Nat} {q : Production} (mem : (first, p) ∈ numbered)
    (h : (close set).testBit (first + i) = true) (hi : p.rhs[i]? = some (.nonterminal q.lhs))
    (start : (g, q) ∈ numbered) : (close set).testBit g = true := by
  have dot := testBit_before mem hi
  have left : (brought q.lhs).testBit g = true :=
    Inside.of_or_eq (brought_closed q.lhs q.lhs.mem_all).1 _ (testBit_startsOf start)
  unfold close at h ⊢
  split at h
  · rename_i none
    exact absurd none ((and_ne_zero_iff _ _).mpr ⟨_, h, before_inside_opens q.lhs _ dot⟩)
  · rename_i opening
    rw [if_neg opening]
    rcases (testBit_gather _ _ _).mp h with h | ⟨r, hr, meet, h⟩
    · exact inside_gather h dot _ left
    · -- the dot was brought in by another phrase, whose set is closed
      obtain ⟨m, _, rfl⟩ := List.mem_map.mp hr
      have h : (brought m).testBit (first + i) = true := h
      have inner := inside_gather h dot _ left
      rw [(brought_closed m m.mem_all).2] at inner
      exact (testBit_gather _ _ _).mpr (.inr ⟨_, hr, meet, inner⟩)

theorem testBit_step {s : Symbol} (mem : (first, p) ∈ numbered) (h : set.testBit (first + i) = true)
    (hi : p.rhs[i]? = some s) : (step set s).testBit (first + (i + 1)) = true := by
  refine inside_close _ _ ?_
  rw [← Nat.add_assoc, Nat.testBit_shiftLeft, Nat.testBit_and, Nat.add_sub_cancel, h,
    testBit_before mem hi]
  exact Bool.and_true _ ▸ decide_eq_true (Nat.le_add_left _ _)

end

/-! ## What stands beside a dot -/

/-- a row with more items beside the left end of a phrase -/
def note (sheet : Sheet) (set : ItemSet) : Symbol → Sheet
  | .terminal _ => sheet
  | .nonterminal n => sheet.put itemCount n.index set

/-- what stands beside the dots of a rule stands beside the left ends of its parts -/
def spread (sheet : Sheet) (set : ItemSet) : List Slot → Sheet
  | [] => sheet
  | .once s :: rest => spread (note sheet set s) (step set s) rest
  | .optional s :: rest => spread (spread (note sheet set s) (step set s) rest) set rest

def round (sheet : Sheet) : Sheet :=
  rules.foldl (fun sheet r => spread sheet (sheet.get itemCount r.lhs.index) r.slots) sheet

@[irreducible] def contexts : Sheet :=
  round (round (note 0 (close (startsOf .file)) (.nonterminal .file)))

/-- what stands beside the left end of a phrase -/
def context (n : Nonterminal) : ItemSet := contexts.get itemCount n.index

/-- what stands beside a dot behind `i` symbols -/
def items (p : Production) (i : Nat) : ItemSet := (p.rhs.take i).foldl step (context p.lhs)

theorem items_zero (p : Production) : items p 0 = context p.lhs := by
  rw [items, List.take_zero, List.foldl_nil]

theorem items_succ {p : Production} {i : Nat} {s : Symbol} (hi : p.rhs[i]? = some s) :
    items p (i + 1) = step (items p i) s := by
  rw [items, List.take_add_one, hi, List.foldl_append]
  rfl

/-- what stands beside a dot stands beside the left end of the phrase behind it -/
def passes (set : ItemSet) : Symbol → Bool
  | .terminal _ => true
  | .nonterminal n => set ||| context n == context n

/-- a set has one complete production at most, and no dot in front of what is read -/
def decided (set reads : ItemSet) : Bool :=
  set &&& ends &&& ((set &&& ends) - 1) == 0 && set &&& reads == 0

/-- along the slots of a rule the table of left ends is closed, and its productions are decided
where the terminals `reads` come behind them, or where a separator was left out the terminals
`closing` -/
def settled (reads closing set : ItemSet) : List Slot → Bool
  | [] => decided set (reads ||| closing)
  | .once s :: rest => passes set s && settled reads closing (step set s) rest
  | .optional s :: rest =>
    passes set s && settled reads closing (step set s) rest &&
      settled (if s.isSeparator then closing else reads) closing set rest

/-- what is in front of the terminals behind a phrase -/
def readsAhead (n : Nonterminal) : ItemSet := reading (Lookahead.ahead n)

/-- and of those that a separator may be left out in front of -/
def readsClosing (n : Nonterminal) : ItemSet :=
  reading ⟨(Lookahead.ahead n).bits &&& Lookahead.closers.bits⟩

theorem contexts_settled :
    close (startsOf .file) ||| context .file = context .file ∧
      ∀ r ∈ rules, settled (readsAhead r.lhs) (readsClosing r.lhs) (context r.lhs) r.slots = true := by
  decide +kernel

theorem decided_mono {set a b : ItemSet} (inside : Inside a b) (h : decided set b = true) :
    decided set a = true := by
  rw [decided, Bool.and_eq_true] at h ⊢
  refine ⟨h.1, beq_iff_eq.mpr ?_⟩
  by_contra meet
  obtain ⟨k, hs, hk⟩ := (and_ne_zero_iff _ _).mp meet
  exact (and_ne_zero_iff _ _).mpr ⟨k, hs, inside k hk⟩ (eq_of_beq h.2)

section
variable {reads closing set : ItemSet} {slots : List Slot} {symbols : List Symbol}

theorem settled_passes (h : settled reads closing set slots = true)
    (chosen : Slot.Chosen slots symbols) {i : Nat} {n : Nonterminal}
    (hi : symbols[i]? = some (.nonterminal n)) :
    Inside ((symbols.take i).foldl step set) (context n) := by
  induction chosen generalizing reads set i with
  | nil => cases hi
  | once s _ ih =>
    rw [settled, Bool.and_eq_true] at h
    cases i with
    | zero =>
      cases hi
      exact Inside.of_or_eq (eq_of_beq h.1)
    | succ i => exact ih h.2 hi
  | taken s _ ih =>
    rw [settled, Bool.and_eq_true, Bool.and_eq_true] at h
    cases i with
    | zero =>
      cases hi
      exact Inside.of_or_eq (eq_of_beq h.1.1)
    | succ i => exact ih h.1.2 hi
  | left s _ ih =>
    rw [settled, Bool.and_eq_true] at h
    exact ih h.2 hi

theorem settled_chosen (h : settled reads closing set slots = true)
    (chosen : Slot.Chosen slots symbols) : decided (symbols.foldl step set) closing = true := by
  induction chosen generalizing reads set with
  | nil => exact decided_mono (.or_right _ _) h
  | once s _ ih =>
    rw [settled, Bool.and_eq_true] at h
    exact ih h.2
  | taken s _ ih =>
    rw [settled, Bool.and_eq_true, Bool.and_eq_true] at h
    exact ih h.1.2
  | left s _ ih =>
    rw [settled, Bool.and_eq_true] at h
    exact ih h.2

theorem settled_separated (h : settled reads closing set slots = true)
    (chosen : Slot.Separated slots symbols) : decided (symbols.foldl step set) reads = true := by
  induction chosen generalizing set with
  | nil => exact decided_mono (.or_left _ _) h
  | once s _ ih =>
    rw [settled, Bool.and_eq_true] at h
    exact ih h.2
  | taken s _ ih =>
    rw [settled, Bool.and_eq_true, Bool.and_eq_true] at h
    exact ih h.1.2
  | left s other _ ih =>
    rw [settled, Bool.and_eq_true, other] at h
    exact ih h.2

end

section
variable {p : Production}

theorem items_passes (mem : p ∈ productions) {i : Nat} {n : Nonterminal}
    (hi : p.rhs[i]? = some (.nonterminal n)) : Inside (items p i) (context n) := by
  obtain ⟨r, hr, lhs, chosen⟩ := (mem_productions p).mp mem
  have h := contexts_settled.2 r hr
  rw [lhs] at h
  exact settled_passes h chosen hi

theorem items_length (p : Production) : items p p.rhs.length = p.rhs.foldl step (context p.lhs) := by
  rw [items, List.take_length]

theorem decided_closing (mem : p ∈ productions) :
    decided (items p p.rhs.length) (readsClosing p.lhs) = true := by
  obtain ⟨r, hr, lhs, chosen⟩ := (mem_productions p).mp mem
  have h := contexts_settled.2 r hr
  rw [lhs] at h
  rw [items_length]
  exact settled_chosen h chosen

theorem decided_ahead (mem : p ∈ separated) :
    decided (items p p.rhs.length) (readsAhead p.lhs) = true := by
  obtain ⟨r, hr, lhs, chosen⟩ := (mem_separated p).mp mem
  have h := contexts_settled.2 r hr
  rw [lhs] at h
  rw [items_length]
  exact settled_separated h chosen

end

end Beside

end Typings
