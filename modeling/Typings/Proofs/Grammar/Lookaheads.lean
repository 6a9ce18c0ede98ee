import Typings.Proofs.Grammar.Sheet
/-!
# What a phrase begins with, and what comes behind it

Where a separator may be left out, what comes behind the phrase is not told from what the phrase goes
on with.  So two kinds of what comes behind a phrase are told apart: all that does, and what does
when separators are only left out in front of a closing brace or the end of the text.

* `Slot.Separated`, `separated`             choices and productions that leave out no separator;
* `Lookahead.first`                         the terminals that a symbol begins with;
* `Lookahead.behind closing`                the terminals behind a phrase, when separators are only
                                            left out in front of `closing`;
* `Lookahead.ahead`, `Lookahead.follow`     the two kinds.

The tables are computed, and checked to be closed under what productions hand on.
-/

namespace Typings

/-! ## Separators -/

/-- what ends a declaration or a member and may be left out -/
def Symbol.isSeparator : Symbol → Bool
  | .terminal .SEMICOLON | .nonterminal .memberSeparator => true
  | .terminal _ | .nonterminal _ => false

namespace Slot

/-- a choice that leaves out no separator -/
inductive Separated : List Slot → List Symbol → Prop
  | nil : Separated [] []
  | once (s : Symbol) {slots symbols} :
      Separated slots symbols → Separated (once s :: slots) (s :: symbols)
  | taken (s : Symbol) {slots symbols} :
      Separated slots symbols → Separated (optional s :: slots) (s :: symbols)
  | left (s : Symbol) {slots symbols} (other : s.isSeparator = false) :
      Separated slots symbols → Separated (optional s :: slots) symbols

/-- the choices that leave out no separator -/
def separatedChoices : List Slot → List (List Symbol)
  | [] => [[]]
  | once s :: rest => (separatedChoices rest).map (s :: ·)
  | optional s :: rest =>
    (separatedChoices rest).map (s :: ·) ++ if s.isSeparator then [] else separatedChoices rest

theorem mem_separatedChoices {slots : List Slot} {symbols : List Symbol}
    (h : symbols ∈ separatedChoices slots) : Separated slots symbols := by
  induction slots generalizing symbols with
  | nil =>
    obtain rfl := List.mem_singleton.mp h
    exact .nil
  | cons slot slots ih =>
    cases slot with
    | once s =>
      obtain ⟨rest, inner, rfl⟩ := List.mem_map.mp h
      exact .once s (ih inner)
    | optional s =>
      rcases List.mem_append.mp h with h | h
      · obtain ⟨rest, inner, rfl⟩ := List.mem_map.mp h
        exact .taken s (ih inner)
      · cases hs : s.isSeparator with
        | true =>
          rw [hs] at h
          cases h
        | false =>
          rw [hs] at h
          exact .left s hs (ih h)

theorem Separated.mem {slots : List Slot} {symbols : List Symbol} (h : Separated slots symbols) :
    symbols ∈ separatedChoices slots := by
  induction h with
  | nil => exact List.mem_singleton.mpr rfl
  | once s _ ih => exact List.mem_map_of_mem ih
  | taken s _ ih => exact List.mem_append_left _ (List.mem_map_of_mem ih)
  | left s other _ ih =>
    refine List.mem_append_right _ ?_
    rw [other]
    exact ih

theorem Separated.chosen {slots : List Slot} {symbols : List Symbol} (h : Separated slots symbols) :
    Chosen slots symbols := by
  induction h with
  | nil => exact .nil
  | once s _ ih => exact .once s ih
  | taken s _ ih => exact .taken s ih
  | left s _ _ ih => exact .left s ih

end Slot

/-- the productions that leave out no separator -/
@[irreducible] def separated : List Production :=
  rules.flatMap fun r => (Slot.separatedChoices r.slots).map (⟨r.lhs, ·⟩)

theorem mem_separated (p : Production) :
    p ∈ separated ↔ ∃ r ∈ rules, r.lhs = p.lhs ∧ Slot.Separated r.slots p.rhs := by
  simp only [separated, List.mem_flatMap, List.mem_map]
  constructor
  · rintro ⟨r, hr, rhs, h, rfl⟩
    exact ⟨r, hr, rfl, Slot.mem_separatedChoices h⟩
  · rintro ⟨r, hr, lhs, h⟩
    exact ⟨r, hr, p.rhs, h.mem, by cases p; cases lhs; rfl⟩

theorem mem_productions_of_separated {p : Production} (h : p ∈ separated) : p ∈ productions := by
  obtain ⟨r, hr, lhs, h⟩ := (mem_separated p).mp h
  exact (mem_productions p).mpr ⟨r, hr, lhs, h.chosen⟩

/-! ## What a phrase begins with -/

namespace Lookahead

/-- the bits of a set of terminals -/
def width : Nat := Terminal.all.length

/-- what a symbol begins with, by a row of what phrases begin with -/
def firstIn (sheet : Sheet) : Symbol → Nat
  | .terminal t => 1 <<< t.index
  | .nonterminal n => sheet.get width n.index

/-- a phrase begins with what the first parts of its productions begin with -/
def firstRound (sheet : Sheet) : Sheet :=
  productions.foldr (fun p sheet =>
    match p.rhs with
    | [] => sheet
    | s :: _ => sheet.put width p.lhs.index (firstIn sheet s)) sheet

@[irreducible] def firsts : Sheet := firstRound (firstRound (firstRound 0))

/-- the terminals that a symbol begins with -/
def first (s : Symbol) : TerminalSet := ⟨firstIn firsts s⟩

theorem firsts_closed : ∀ p ∈ productions, ∀ s ∈ p.rhs.head?,
    firstIn firsts s ||| firsts.get width p.lhs.index = firsts.get width p.lhs.index := by
  decide +kernel

theorem first_terminal (t : Terminal) : (first (.terminal t)).contains t = true := by
  show (1 <<< t.index).testBit t.index = true
  exact (testBit_one_shiftLeft _ _).mpr rfl

theorem first_of_head {p : Production} {s : Symbol} {t : Terminal} (mem : p ∈ productions)
    (head : p.rhs.head? = some s) (h : (first s).contains t = true) :
    (first (.nonterminal p.lhs)).contains t = true :=
  Inside.of_or_eq (firsts_closed p mem s head) _ h

/-! ## What comes behind a phrase -/

/-- a row with more terminals behind a phrase -/
def note (sheet : Sheet) (set : Nat) : Symbol → Sheet
  | .terminal _ => sheet
  | .nonterminal n => sheet.put width n.index set

/-- in a right side the next part comes behind a part, and `set` behind the last one -/
def handOn (set : Nat) : List Symbol → Sheet → Sheet
  | [], sheet => sheet
  | [s], sheet => note sheet set s
  | s :: t :: rest, sheet => handOn set (t :: rest) (note sheet (firstIn firsts t) s)

/-- what comes behind a phrase comes behind its last part; where a separator is left out, only
what is in `closing` -/
def behindRound (closing : TerminalSet) (sheet : Sheet) : Sheet :=
  separated.foldl (fun sheet p => handOn (sheet.get width p.lhs.index) p.rhs sheet)
    (productions.foldl (fun sheet p =>
      handOn (sheet.get width p.lhs.index &&& closing.bits) p.rhs sheet) sheet)

def behinds (closing : TerminalSet) : Sheet :=
  behindRound closing (behindRound closing (behindRound closing
    (note 0 (TerminalSet.ofList [.END]).bits (.nonterminal .file))))

/-- the terminals behind a phrase, when separators are only left out in front of `closing` -/
def behind (closing : TerminalSet) (n : Nonterminal) : TerminalSet :=
  ⟨(behinds closing).get width n.index⟩

/-- the terminals of a set come behind a symbol -/
def holds (sheet : Sheet) (set : Nat) : Symbol → Bool
  | .terminal _ => true
  | .nonterminal n => set ||| sheet.get width n.index == sheet.get width n.index

/-- `handOn` adds nothing -/
def handedOn (sheet : Sheet) (set : Nat) : List Symbol → Bool
  | [] => true
  | [s] => holds sheet set s
  | s :: t :: rest => holds sheet (firstIn firsts t) s && handedOn sheet set (t :: rest)

/-- a row is closed under what productions hand on, and the end of the text comes behind a file -/
def Closed (closing : TerminalSet) (sheet : Sheet) : Prop :=
  (sheet.get width Nonterminal.file.index).testBit Terminal.END.index = true ∧
    (∀ p ∈ productions, handedOn sheet (sheet.get width p.lhs.index &&& closing.bits) p.rhs = true) ∧
    ∀ p ∈ separated, handedOn sheet (sheet.get width p.lhs.index) p.rhs = true

instance (closing : TerminalSet) (sheet : Sheet) : Decidable (Closed closing sheet) :=
  inferInstanceAs (Decidable (_ ∧ _ ∧ _))

theorem handedOn_next {sheet : Sheet} {set i : Nat} {symbols : List Symbol} {n : Nonterminal}
    {s : Symbol} (h : handedOn sheet set symbols = true) (hn : symbols[i]? = some (.nonterminal n))
    (hs : symbols[i + 1]? = some s) : Inside (firstIn firsts s) (sheet.get width n.index) := by
  induction symbols generalizing i with
  | nil => cases hn
  | cons x rest ih =>
    cases rest with
    | nil => cases hs
    | cons y rest =>
      rw [handedOn, Bool.and_eq_true] at h
      cases i with
      | zero =>
        cases hn
        cases hs
        exact Inside.of_or_eq (eq_of_beq h.1)
      | succ i => exact ih h.2 hn hs

theorem handedOn_last {sheet : Sheet} {set : Nat} {symbols : List Symbol} {n : Nonterminal}
    (h : handedOn sheet set symbols = true) (hn : symbols.getLast? = some (.nonterminal n)) :
    Inside set (sheet.get width n.index) := by
  induction symbols with
  | nil => cases hn
  | cons x rest ih =>
    cases rest with
    | nil =>
      cases hn
      exact Inside.of_or_eq (eq_of_beq h)
    | cons y rest =>
      rw [handedOn, Bool.and_eq_true] at h
      exact ih h.2 (by rwa [List.getLast?_cons_cons] at hn)

section
variable {closing : TerminalSet} {p : Production} {n : Nonterminal} {t : Terminal}

theorem behind_next (closed : Closed closing (behinds closing)) {i : Nat} {s : Symbol}
    (mem : p ∈ productions) (hn : p.rhs[i]? = some (.nonterminal n)) (hs : p.rhs[i + 1]? = some s)
    (h : (first s).contains t = true) : (behind closing n).contains t = true :=
  handedOn_next (closed.2.1 p mem) hn hs _ h

theorem behind_last (closed : Closed closing (behinds closing)) (mem : p ∈ productions)
    (hn : p.rhs.getLast? = some (.nonterminal n)) (h : (behind closing p.lhs).contains t = true)
    (kept : p ∈ separated ∨ closing.contains t = true) : (behind closing n).contains t = true := by
  rcases kept with kept | kept
  · exact handedOn_last (closed.2.2 p kept) hn _ h
  · refine handedOn_last (closed.2.1 p mem) hn _ ?_
    have h : ((behinds closing).get width p.lhs.index).testBit t.index = true := h
    have kept : closing.bits.testBit t.index = true := kept
    rw [Nat.testBit_and, h, kept]
    rfl

end

/-! ## The two kinds -/

/-- what a separator may be left out in front of -/
def closers : TerminalSet := TerminalSet.ofList [.RBRACE, .END]

/-- the terminals behind a phrase when separators are only left out in front of `closers` -/
def ahead (n : Nonterminal) : TerminalSet := behind closers n

/-- all terminals behind a phrase -/
def follow (n : Nonterminal) : TerminalSet := behind (TerminalSet.ofList Terminal.all) n

theorem ahead_closed : Closed closers (behinds closers) := by decide +kernel

theorem follow_closed :
    Closed (TerminalSet.ofList Terminal.all) (behinds (TerminalSet.ofList Terminal.all)) := by
  decide +kernel

theorem contains_all (t : Terminal) : (TerminalSet.ofList Terminal.all).contains t = true := by
  cases t <;> decide

end Lookahead

end Typings
