import Typings.Syntax.Derivation
/-!
# Syntax trees

A syntax tree is a derivation without what the shape of the tree implies: the punctuation and most
keywords are gone, a phrase that only passes on one part is that part, and the repetitions stand in
the place of their phrase.

* `Label`                 the phrase of a node, or any other name;
* `Tree`                  a token or a labelled node;
* `Derivation.trees`      what a derivation shows as;
* `Tree.ofDerivation`     the tree of a whole file.

A node is located at its first token, whether that token is still in the tree or not.
-/

namespace Typings

/-- what a node of a tree is called -/
inductive Label where
  | phrase (n : Nonterminal)
  /-- a name that no phrase of the grammar has -/
  | other (name : Text)
deriving DecidableEq, Inhabited

namespace Label

def name : Label → Text
  | phrase n => n.label?.getD ""
  | other name => name

def ofName (name : Text) : Label :=
  match name.toString?.bind Nonterminal.ofLabel? with
  | some n => phrase n
  | none => other name

end Label

/-- a syntax tree; the class of a token is `none` if the grammar has no such class -/
inductive Tree where
  | leaf (kind : Option Terminal) (text : Text) (loc : Loc)
  | node (label : Label) (loc : Loc) (children : List Tree)
deriving Inhabited

namespace Derivation

/-- the line and column of the first token; zero and zero if there is no token -/
def loc (d : Derivation) : Loc := (d.start?.map Cursor.loc).getD ⟨0, 0⟩

/-- a phrase with the trees of its parts, shown in the way of its shape -/
def shown (n : Nonterminal) (loc : Loc) (children : List Tree) : List Tree :=
  match n.shape, children with
  | .spliced, _ => children
  | .transparent, [child] => [child]
  | _, _ => [.node (.phrase n) loc children]

mutual

/-- what a derivation shows as -/
def trees : Derivation → List Tree
  | leaf token => if token.kind.isKept then [.leaf (some token.kind) token.text token.start.loc] else []
  | node p parts => shown p.lhs (node p parts).loc (treesOf parts)

def treesOf : List Derivation → List Tree
  | [] => []
  | d :: rest => trees d ++ treesOf rest

end

theorem treesOf_eq_flatMap (ds : List Derivation) : treesOf ds = ds.flatMap trees := by
  induction ds with
  | nil => rfl
  | cons d ds ih => rw [treesOf, ih, List.flatMap_cons]

end Derivation

def Tree.ofDerivation (d : Derivation) : Tree := .node (.phrase .file) d.loc (match d with
  | .leaf _ => []
  | .node _ parts => Derivation.treesOf parts)

end Typings
