import Typings.Proofs.Syntax.Ending
/-!
# Separated derivations have a course

The next token may go on with a phrase that should have ended.  That does not happen when separators are
only left out in front of a closing brace or the end of the text.

* `Derivation.Separated`             no separator is left out;
* `Derivation.Parted`                one is only left out in front of a closing brace or the end;
* `Derivation.leads_of_parted`       then the derivation has a course.
-/

namespace Typings

namespace Derivation
open Automaton

/-! ## Separators -/

mutual

/-- no separator is left out -/
inductive Separated : Derivation → Prop
  | leaf (token : Token) : Separated (leaf token)
  | node {p : Production} {parts : List Derivation} (kept : p ∈ separated)
      (inner : AllSeparated parts) : Separated (node p parts)

inductive AllSeparated : List Derivation → Prop
  | nil : AllSeparated []
  | cons {d : Derivation} {rest : List Derivation} (here : Separated d)
      (further : AllSeparated rest) : AllSeparated (d :: rest)

end

mutual

/-- with a token of the class `ahead` behind it, a separator is only left out in front of a closing
brace or the end of the text -/
inductive Parted : Derivation → Terminal → Prop
  | leaf (token : Token) (ahead : Terminal) : Parted (leaf token) ahead
  | node {p : Production} {parts : List Derivation} {ahead : Terminal}
      (kept : p ∈ separated ∨ Lookahead.closers.contains ahead = true)
      (inner : AllParted parts ahead) : Parted (node p parts) ahead

inductive AllParted : List Derivation → Terminal → Prop
  | nil (ahead : Terminal) : AllParted [] ahead
  | cons {d : Derivation} {rest : List Derivation} {ahead : Terminal}
      (here : Parted d (firstKind rest ahead)) (further : AllParted rest ahead) :
      AllParted (d :: rest) ahead

end

mutual

theorem Separated.parted : ∀ {d : Derivation}, Separated d → ∀ ahead, Parted d ahead
  | .leaf token, _, ahead => .leaf token ahead
  | .node _ _, .node kept inner, ahead => .node (.inl kept) (AllSeparated.parted inner ahead)

theorem AllSeparated.parted : ∀ {ds : List Derivation}, AllSeparated ds → ∀ ahead, AllParted ds ahead
  | [], _, ahead => .nil ahead
  | _ :: _, .cons here further, ahead =>
    .cons (Separated.parted here _) (AllSeparated.parted further ahead)

end

/-! ## All of this can be checked -/

mutual

def decValid : (d : Derivation) → Decidable d.Valid
  | leaf token => isTrue (.leaf token)
  | node p parts =>
    match decAllValid parts with
    | isFalse no => isFalse fun | .node _ _ valid => no valid
    | isTrue valid =>
      if h : p ∈ productions ∧ parts.map root = p.rhs then isTrue (.node h.1 h.2 valid)
      else isFalse fun | .node mem roots _ => h ⟨mem, roots⟩

def decAllValid : (ds : List Derivation) → Decidable (AllValid ds)
  | [] => isTrue .nil
  | d :: rest =>
    match decValid d, decAllValid rest with
    | isFalse no, _ => isFalse fun | .cons here _ => no here
    | _, isFalse no => isFalse fun | .cons _ further => no further
    | isTrue here, isTrue further => isTrue (.cons here further)

end

mutual

def decSeparated : (d : Derivation) → Decidable d.Separated
  | leaf token => isTrue (.leaf token)
  | node p parts =>
    match decAllSeparated parts with
    | isFalse no => isFalse fun | .node _ inner => no inner
    | isTrue inner =>
      if kept : p ∈ separated then isTrue (.node kept inner)
      else isFalse fun | .node mem _ => kept mem

def decAllSeparated : (ds : List Derivation) → Decidable (AllSeparated ds)
  | [] => isTrue .nil
  | d :: rest =>
    match decSeparated d, decAllSeparated rest with
    | isFalse no, _ => isFalse fun | .cons here _ => no here
    | _, isFalse no => isFalse fun | .cons _ further => no further
    | isTrue here, isTrue further => isTrue (.cons here further)

end

mutual

def decParted : (d : Derivation) → (ahead : Terminal) → Decidable (d.Parted ahead)
  | leaf token, ahead => isTrue (.leaf token ahead)
  | node p parts, ahead =>
    match decAllParted parts ahead with
    | isFalse no => isFalse fun | .node _ inner => no inner
    | isTrue inner =>
      if kept : p ∈ separated ∨ Lookahead.closers.contains ahead = true then isTrue (.node kept inner)
      else isFalse fun | .node either _ => kept either

def decAllParted : (ds : List Derivation) → (ahead : Terminal) → Decidable (AllParted ds ahead)
  | [], ahead => isTrue (.nil ahead)
  | d :: rest, ahead =>
    match decParted d (firstKind rest ahead), decAllParted rest ahead with
    | isFalse no, _ => isFalse fun | .cons here _ => no here
    | _, isFalse no => isFalse fun | .cons _ further => no further
    | isTrue here, isTrue further => isTrue (.cons here further)

end

instance (d : Derivation) : Decidable d.Valid := decValid d

instance (d : Derivation) : Decidable d.Separated := decSeparated d

instance (d : Derivation) (ahead : Terminal) : Decidable (d.Parted ahead) := decParted d ahead

/-! ## Courses -/

/-- a phrase begins with what it should -/
theorem first_of_valid : ∀ {d : Derivation}, d.Valid → d.root ≠ .nonterminal .file → ∀ ahead,
    (Lookahead.first d.root).contains (firstKind [d] ahead) = true
  | .leaf token, _, _, _ => Lookahead.first_terminal token.kind
  | .node p [], .node mem roots _, part, _ => by
    refine absurd ?_ part
    rw [root_node, eq_file_of_rhs_nil p mem roots.symm]
  | .node p (e :: rest), .node mem roots (.cons here _), _, ahead => by
    have inRhs : e.root ∈ p.rhs := by
      rw [← roots]
      exact List.mem_cons_self
    have part : e.root ≠ .nonterminal .file := fun isFile =>
      file_not_mem_rhs p mem (isFile ▸ inRhs)
    rw [firstKind_node, firstKind_cons]
    refine Lookahead.first_of_head mem ?_ (first_of_valid here part _)
    rw [← roots]
    rfl

/-- what comes behind a part of a production is what can come there -/
theorem ahead_of_part {p : Production} {i : Nat} {n : Nonterminal} {rest : List Derivation}
    {ahead : Terminal} (mem : p ∈ productions) (rhs : p.rhs.drop i = .nonterminal n :: rest.map root)
    (valid : AllValid rest) (kept : p ∈ separated ∨ Lookahead.closers.contains ahead = true)
    (behind : (Lookahead.ahead p.lhs).contains ahead = true) :
    (Lookahead.ahead n).contains (firstKind rest ahead) = true := by
  have hn : p.rhs[i]? = some (.nonterminal n) := by
    rw [← List.head?_drop, rhs]
    rfl
  cases valid with
  | nil =>
    refine Lookahead.behind_last Lookahead.ahead_closed mem ?_ behind kept
    have last := congrArg List.getLast? (List.take_append_drop i p.rhs)
    rw [rhs, List.getLast?_append] at last
    exact last.symm
  | @cons e more here _ =>
    have he : p.rhs[i + 1]? = some e.root := by
      rw [← List.head?_drop, ← List.tail_drop, rhs]
      rfl
    have part : e.root ≠ .nonterminal .file := fun isFile =>
      file_not_mem_rhs p mem (isFile ▸ List.mem_of_getElem? he)
    rw [firstKind_cons]
    exact Lookahead.behind_next Lookahead.ahead_closed mem hn he (first_of_valid here part _)

mutual

/-- each phrase ends in front of what comes behind it -/
theorem Parted.ended : ∀ {d : Derivation}, d.Valid → ∀ {ahead : Terminal}, Parted d ahead →
    (∀ n, d.root = .nonterminal n → (Lookahead.ahead n).contains ahead = true) → Ended d ahead
  | .leaf token, _, ahead, _, _ => .leaf token ahead
  | .node q _, .node mem roots valid, _, .node kept inner, behind =>
    .node (q.endsBefore_of_kept mem kept (behind q.lhs rfl))
      (AllParted.ended valid inner mem (i := 0) roots.symm kept (behind q.lhs rfl))

/-- the same for parts of a production -/
theorem AllParted.ended : ∀ {ds : List Derivation}, AllValid ds → ∀ {ahead : Terminal}, AllParted ds ahead →
    ∀ {p : Production} {i : Nat}, p ∈ productions → p.rhs.drop i = ds.map root →
      p ∈ separated ∨ Lookahead.closers.contains ahead = true →
      (Lookahead.ahead p.lhs).contains ahead = true → AllEnded ds ahead
  | [], _, ahead, _, _, _, _, _, _, _ => .nil ahead
  | d :: rest, .cons valid valids, ahead, .cons here further, p, i, mem, rhs, kept, behind => by
    have inside := (drop_cons rhs).2
    refine .cons (Parted.ended valid here fun n isRoot => ?_)
      (AllParted.ended valids further mem inside kept behind)
    rw [List.map_cons, isRoot] at rhs
    exact ahead_of_part mem rhs valids kept behind

end

/-- a derivation of a file that leaves out separators only in front of a closing brace or the end of
the text has a course -/
theorem leads_of_parted {d : Derivation} (valid : d.Valid) (root : d.root = .nonterminal .file)
    (parted : Parted d .END) : ∃ states, d.Leads states := by
  refine leads_of_ended valid root (parted.ended valid fun n isRoot => ?_)
  obtain rfl := Symbol.nonterminal.inj (root.symm.trans isRoot)
  exact Lookahead.ahead_closed.1

end Derivation

end Typings
