import Typings.Grammar.Items
/-!
# The parsing automaton

The states are the sets of items that reading symbols leads to, from the left-end items of `file`
on.  A state may reduce by a production when the next terminal can follow the phrase in one of the
places that lead to the state, however those places are told apart by the states alone.  Where the
next terminal can also be read, reading it goes before reducing.

* `Automaton.kernels`       the states as item sets, in the order of their discovery;
* `Automaton.transitions`   for each state, the symbols it reads and where they lead;
* `Automaton.follows`       for each state and phrase it reads, the terminals that can come after;
* `Automaton.rows`          for each state its actions and where its phrases lead;
* `Automaton.action`, `Automaton.goto`, `Automaton.expected`   the table as functions.
-/

namespace Typings

/-- what to do with the next token -/
inductive Action where
  | shift (state : Nat)
  | reduce (production : Production)
deriving DecidableEq

namespace Automaton

/-- the element of a list with a number.  The number is looked at before the list, so that nothing
is made of a table as long as the number is not known. -/
def nth? {α : Type} : Nat → List α → Option α
  | 0, l => l.head?
  | n + 1, l => nth? n l.tail

theorem nth?_eq_getElem? {α : Type} (n : Nat) (l : List α) : nth? n l = l[n]? := by
  induction n generalizing l with
  | zero => exact List.head?_eq_getElem?
  | succ n ih => rw [nth?, ih, List.getElem?_tail]

/-! ## States -/

/-- the item sets found from those still to visit, `fuel` visits at most -/
def discover : Nat → List ItemSet → List ItemSet → List ItemSet
  | 0, _, found => found
  | _, [], found => found
  | fuel + 1, kernel :: todo, found =>
    let new := ((ItemSet.successors kernel).map (·.2)).filter fun k => !found.contains k
    discover fuel (todo ++ new) (found ++ new)

/-- the states: the left-end items of `file`, and all that reading symbols leads to.  There are no
more visits than sets of items. -/
@[irreducible] def kernels : List ItemSet :=
  discover (Nat.pow 2 itemCount) [ItemSet.startsOf .file] [ItemSet.startsOf .file]

/-- for each state, the symbols it reads and the number of the state they lead to -/
@[irreducible] def transitions : List (List (Symbol × Nat)) :=
  kernels.map fun k => (ItemSet.successors k).map fun sk => (sk.1, kernels.idxOf sk.2)

def next? (state : Nat) (s : Symbol) : Option Nat :=
  (nth? state transitions).bind fun row => row.lookup s

def walk? (state : Nat) : List Symbol → Option Nat
  | [] => some state
  | s :: rest => (next? state s).bind fun state => walk? state rest

/-! ## What can follow a phrase

A place is a state together with a phrase it reads; `file` in the first state is one too.  After a
place come the terminals that the state behind it reads, and where the phrase is the last part of a
longer one, all that comes after the place of that. -/

/-- the places in the order of the states -/
@[irreducible] def places : List (Nat × Nonterminal) :=
  (0, .file) :: (transitions.zipIdx.flatMap fun rowState => rowState.1.filterMap fun st =>
    match st.1 with
    | .nonterminal n => some (rowState.2, n)
    | .terminal _ => none)

def readable (state : Nat) : TerminalSet :=
  (transitions[state]?.getD []).foldl (fun set st =>
    match st.1 with
    | .terminal t => set.insert t
    | .nonterminal _ => set) .empty

/-- the terminals read right behind a place -/
def directFollow (place : Nat × Nonterminal) : TerminalSet :=
  if place.2 = .file then TerminalSet.ofList [.END]
  else match next? place.1 (.nonterminal place.2) with
    | some state => readable state
    | none => .empty

/-- the last part of a right side, after the parts before it -/
def splitLast? : List Symbol → Option (List Symbol × Symbol)
  | [] => none
  | [s] => some ([], s)
  | s :: rest => (splitLast? rest).map fun il => (s :: il.1, il.2)

/-- a place, with the places of the phrases that end there -/
def endings (place : Nat × Nonterminal) : List (Nat × Nonterminal) :=
  productions.filterMap fun p =>
    if p.lhs = place.2 then
      match splitLast? p.rhs with
      | some (front, .nonterminal n) => (walk? place.1 front).map fun state => (state, n)
      | _ => none
    else none

/-- each place followed by the numbers of the places whose phrase it ends -/
@[irreducible] def sources : List (List Nat) :=
  let links := places.zipIdx.flatMap fun pi => (endings pi.1).map fun e => (e, pi.2)
  places.map fun place => (links.filter fun link => link.1 == place).map (·.2)

/-- one round of handing on what follows a place to the places that end its phrase -/
def handOn (sets : List TerminalSet) : List TerminalSet :=
  (sets.zip sources).map fun setFrom =>
    setFrom.2.foldl (fun set i => set.union (sets[i]?.getD .empty)) setFrom.1

/-- `handOn` until nothing is added, `fuel` times at most -/
def settle : Nat → List TerminalSet → List TerminalSet
  | 0, sets => sets
  | fuel + 1, sets =>
    let larger := handOn sets
    if larger = sets then sets else settle fuel larger

/-- the terminals that can follow each place.  Each round but the last adds a terminal to a place. -/
@[irreducible] def follows : List TerminalSet :=
  settle (places.length * Terminal.all.length) (places.map directFollow)

/-! ## The table -/

/-- for each place and each way to write its phrase, the state at the end of that and what can
follow there -/
@[irreducible] def reductions : List (Nat × Production × TerminalSet) :=
  (places.zip follows).flatMap fun placeSet => productions.filterMap fun p =>
    if p.lhs = placeSet.1.2 then
      (walk? placeSet.1.1 p.rhs).map fun state => (state, p, placeSet.2)
    else none

structure Row where
  actions : List (Terminal × Action)
  gotos : List (Nonterminal × Nat)
deriving DecidableEq, Inhabited

/-- the row of a state: a terminal that can be read is read, any other reduces by the production
that it can follow -/
def row (state : Nat) (reads : List (Symbol × Nat)) : Row where
  actions :=
    let ends := reductions.filter fun r => r.1 == state
    Terminal.all.filterMap fun t =>
      match reads.lookup (.terminal t) with
      | some next => some (t, .shift next)
      | none => (ends.find? fun r => r.2.2.contains t).map fun r => (t, .reduce r.2.1)
  gotos := reads.filterMap fun st =>
    match st.1 with
    | .nonterminal n => some (n, st.2)
    | .terminal _ => none

/-- the table, a row for each state -/
@[irreducible] def rows : List Row := transitions.zipIdx.map fun readsState => row readsState.2 readsState.1

/-- what a state does with a terminal; none if the terminal cannot come here -/
def action (state : Nat) (t : Terminal) : Option Action :=
  (nth? state rows).bind fun r => r.actions.lookup t

def goto (state : Nat) (n : Nonterminal) : Option Nat :=
  (nth? state rows).bind fun r => r.gotos.lookup n

/-- the terminals that a state has an action for, in the order of their names -/
def expected (state : Nat) : List Terminal :=
  ((nth? state rows).map fun r => r.actions.map (·.1)).getD []

end Automaton

end Typings
