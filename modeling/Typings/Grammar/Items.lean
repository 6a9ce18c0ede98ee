import Typings.Grammar.Rules
/-!
# Items and item sets

An item is a production with a dot in its right side.  Items are numbered in one row: those of the
first production with the dot moving from left to right, then those of the next.  A set of items is
a number with one bit for each item, so moving every dot one symbol to the right is a shift.

* `numbered`, `itemCount`  the productions, each with the number of its first item, and all items;
* `ItemSet.before s`       the items with the dot in front of the symbol `s`;
* `ItemSet.startsOf n`     the items of the phrase `n` with the dot at the left end;
* `ItemSet.expansion n`    those, and all that a dot in front of their first symbols brings in;
* `ItemSet.closure`        a set with all that its dots bring in;
* `ItemSet.successors`     the sets that reading one symbol leads to.
-/

namespace Typings

/-- number the items of a list of productions, from `first` on -/
def numberedFrom (first : Nat) : List Production → List (Nat × Production)
  | [] => []
  | p :: rest => (first, p) :: numberedFrom (first + p.rhs.length + 1) rest

/-- the productions, each with the number of its item whose dot is at the left end -/
@[irreducible] def numbered : List (Nat × Production) := numberedFrom 0 productions

/-- the number of items -/
def itemCount : Nat := (productions.map fun p => p.rhs.length + 1).foldl (· + ·) 0

/-- a set of items, one bit for each -/
abbrev ItemSet := Nat

namespace ItemSet

/-- the items in front of a symbol, in a right side whose first item is `first` -/
def beforeIn (s : Symbol) (first : Nat) : List Symbol → ItemSet
  | [] => 0
  | x :: rest => (if x = s then 1 <<< first else 0) ||| beforeIn s (first + 1) rest

/-- the items with the dot in front of a symbol -/
def before (s : Symbol) : ItemSet :=
  numbered.foldl (fun set np => set ||| beforeIn s np.1 np.2.rhs) 0

/-- the items of a phrase with the dot at the left end -/
def startsOf (n : Nonterminal) : ItemSet :=
  numbered.foldl (fun set np => if np.2.lhs = n then set ||| (1 <<< np.1) else set) 0

/-- every symbol with the items in front of it -/
def befores : List (Symbol × ItemSet) := Symbol.all.map fun s => (s, before s)

/-- every phrase, the items in front of it and its items with the dot at the left end -/
def phrases : List (ItemSet × ItemSet) :=
  Nonterminal.all.map fun n => (before (.nonterminal n), startsOf n)

/-- a set with the left-end items of the phrases that stand after its dots -/
def widen (set : ItemSet) : ItemSet :=
  phrases.foldl (fun acc p => if set &&& p.1 = 0 then acc else acc ||| p.2) set

/-- `widen` until nothing is added, `fuel` times at most -/
def saturate : Nat → ItemSet → ItemSet
  | 0, set => set
  | fuel + 1, set =>
    let wider := widen set
    if wider = set then set else saturate fuel wider

/-- the left-end items of a phrase and all that they bring in -/
def expansion (n : Nonterminal) : ItemSet := saturate Nonterminal.all.length (startsOf n)

/-- for every phrase the items in front of it, and its expansion -/
def expansions : List (ItemSet × ItemSet) :=
  Nonterminal.all.map fun n => (before (.nonterminal n), expansion n)

/-- a set and all that its dots bring in -/
def closure (kernel : ItemSet) : ItemSet :=
  expansions.foldl (fun acc p => if kernel &&& p.1 = 0 then acc else acc ||| p.2) kernel

/-- for each symbol that may come next, the items after it -/
def successors (kernel : ItemSet) : List (Symbol × ItemSet) :=
  let all := closure kernel
  befores.filterMap fun sb =>
    let here := all &&& sb.2
    if here = 0 then none else some (sb.1, here <<< 1)

end ItemSet

end Typings
