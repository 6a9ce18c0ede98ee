import Typings.Proofs.Model.ModulePath
import Typings.Proofs.Syntax.Writing
/-!
# Members in braces

The members of an object type grow on the left, each with a separator behind it that may be left out behind
the last one.  A member may begin with any name but `new`: the state behind a brace or a separator reads no
other keyword.

* `Derivation.exists_members`        members with a separator behind each;
* `Derivation.exists_open_members`   members without a separator behind the last one;
* `Writes.object`, `Writes.closed_object`   object types with such members.
-/

namespace Typings
open Terminal Nonterminal

namespace Derivation

/-- the productions of members, and what they begin with -/
theorem members_checked : ⟨objectMembers, [objectMembers, typeMember, memberSeparator]⟩ ∈ separated ∧
    ⟨objectMembers, [.nonterminal typeMember]⟩ ∈ productions ∧
    ⟨objectMembers, [.nonterminal objectMembers, .nonterminal typeMember]⟩ ∈ productions ∧
    ⟨objectType, [LBRACE, objectMembers, RBRACE]⟩ ∈ separated ∧
    (Symbol.nonterminal objectMembers).mayBeName = true ∧
    (Symbol.nonterminal memberSeparator).mayBeName = false := by
  decide +kernel

theorem objectMembers_mayBeName : (Symbol.nonterminal objectMembers).mayBeName = true :=
  members_checked.2.2.2.2.1

theorem memberSeparator_mayBeName : (Symbol.nonterminal memberSeparator).mayBeName = false :=
  members_checked.2.2.2.2.2

/-- behind an opening brace comes no keyword but `new` -/
theorem brace_admits : Dot.Admits ⟨⟨objectType, [LBRACE, objectMembers, RBRACE]⟩, 1⟩ [NEW] :=
  ((Dot.checked.1 _ (mem_productions_of_separated members_checked.2.2.2.1) (by decide)).at 0 _ rfl
    objectMembers_mayBeName).2

/-- the separator behind a member -/
def separator : Derivation := phrase memberSeparator [sign SEMICOLON]

/-- the dot behind a separator -/
def separatorDot : Dot := ⟨⟨memberSeparator, [SEMICOLON]⟩, 1⟩

theorem separatorDot_admits : separatorDot.Admits [NEW] := Dot.checked.2 (separatorDot, [NEW]) (by decide)

theorem isPart_separator (words : List Terminal) : IsPart words memberSeparator separator :=
  isPart_row (by decide) (List.forall_mem_singleton.mpr (isPart_sign (by decide) _))
    (by rintro _ ⟨⟩; exact isPart_sign (by decide) _)

/-- one more member behind others -/
theorem isPart_members_more {m d : Derivation} (isFront : IsPart [NEW] objectMembers m)
    (behind : ∀ p i, m.dotBehind p i = some separatorDot) (isPart : IsPart [NEW] typeMember d) :
    IsPart [NEW] objectMembers (phrase objectMembers [m, d, separator]) := by
  have kept : ⟨objectMembers, [m, d, separator].map root⟩ ∈ separated := by
    rw [List.map_cons, List.map_cons, List.map_singleton, isFront.root, isPart.root]
    exact members_checked.1
  have parts : ∀ e ∈ [m, d, separator], ∃ words s, IsPart words s e := List.forall_mem_cons.mpr
    ⟨⟨_, _, isFront⟩, List.forall_mem_cons.mpr ⟨⟨_, _, isPart⟩, List.forall_mem_singleton.mpr
      ⟨_, _, isPart_separator []⟩⟩⟩
  refine isPart_of_unworded nofun kept parts fun dot stands => ⟨isFront.unworded dot stands, ?_, ?_, trivial⟩
  · rw [behind]
    exact isPart.unworded _ fun _ => ⟨_, rfl, separatorDot_admits⟩
  · exact ⟨nofun, trivial⟩

/-- what members with a separator behind each are: their text begins with a space -/
structure IsMembers (text : Text) (ts : List Tree) (m : Derivation) : Prop where
  isPart : IsPart [NEW] objectMembers m
  behind : ∀ p i, m.dotBehind p i = some separatorDot
  written : Written m.tokens text
  last : ∀ t ∈ m.tokens.getLast?, t.kind = SEMICOLON
  trees : m.trees = ts

/-- a text of lexemes with a space in front -/
theorem written_spaced {words : List Terminal} {s : Symbol} {d : Derivation} {text : Text} 
    (isPart : IsPart words s d) (written : Written d.tokens text) : Written d.tokens (Text.ofString " " ++ text) := by
  obtain ⟨token, tokens, e⟩ := List.exists_cons_of_ne_nil
    (tokens_ne_nil isPart.valid (isPart.root ▸ isPart.part))
  rw [e] at written ⊢
  exact written.spaced

/-- the text of a member and its separator, with a space in front -/
theorem written_separated {d : Derivation} {text : Text} {words : List Terminal} {s : Symbol}
    (isPart : IsPart words s d) (written : Written d.tokens text) :
    Written (d.tokens ++ separator.tokens) (Text.ofString " " ++ (text ++ Text.ofString ";")) := by
  have isMark : Written separator.tokens (Text.ofString ";") := .one (.spelled rfl)
  rw [← List.append_assoc]
  exact (written_spaced isPart written).beside isMark (fun t mem => (isPart.printed t mem).kind.2)
    (Text.apart_cons (by decide) _)

namespace IsMembers
variable {text behind : Text} {ts : List Tree} {m d : Derivation}

/-- one member -/
theorem one (isPart : IsPart [NEW] typeMember d) (written : Written d.tokens text) :
    IsMembers (Text.ofString " " ++ (text ++ Text.ofString ";")) d.trees
      (phrase objectMembers [d, separator]) where
  isPart := by
    have here : IsPart d.root.openingWords d.root d := isPart.root.symm ▸ isPart
    refine isPart_row (by rw [List.map_cons, isPart.root]; decide) (List.forall_mem_cons.mpr
      ⟨here, List.forall_mem_singleton.mpr (isPart_separator _)⟩) ?_
    rintro _ ⟨⟩
    exact isPart.root.symm ▸ isPart
  behind _ _ := rfl
  written := by
    rw [tokens_phrase, tokensOf, tokensOf_singleton]
    exact written_separated isPart written
  last := by
    rw [tokens_phrase, tokensOf, tokensOf_singleton, List.getLast?_append]
    rintro t ⟨⟩
    rfl
  trees := (trees_spliced rfl _).trans (List.append_nil _)

/-- one more member -/
theorem more (h : IsMembers behind ts m) (isPart : IsPart [NEW] typeMember d) (written : Written d.tokens text) :
    IsMembers (behind ++ (Text.ofString " " ++ (text ++ Text.ofString ";"))) (ts ++ d.trees)
      (phrase objectMembers [m, d, separator]) where
  isPart := isPart_members_more h.isPart h.behind isPart
  behind _ _ := rfl
  written := by
    rw [tokens_phrase, tokensOf, tokensOf, tokensOf_singleton]
    refine h.written.append (written_separated isPart written) fun t mem => ?_
    rw [h.last t mem]
    exact Text.not_begins_cons (goesOn_space _) _
  last := by
    rw [tokens_phrase, tokensOf, tokensOf, tokensOf_singleton, List.getLast?_append, List.getLast?_append]
    rintro t ⟨⟩
    rfl
  trees := by
    rw [trees_spliced rfl, treesOf, h.trees]
    exact congrArg (ts ++ ·) (List.append_nil _)

end IsMembers

/-- members with a separator behind each -/
theorem exists_members {α : Type} {f : α → Text} {d : α → Derivation} {l : List α}
    (isPart : ∀ a ∈ l, IsPart [NEW] typeMember (d a)) (written : ∀ a ∈ l, Written (d a).tokens (f a))
    (some : l ≠ []) : ∃ m, IsMembers (l.flatMap fun a => Text.ofString " " ++ (f a ++ Text.ofString ";"))
      (l.flatMap fun a => (d a).trees) m := by
  induction l using List.reverseRecOn with
  | nil => exact absurd rfl some
  | append_singleton l a ih =>
    obtain ⟨isPart, isLast⟩ := List.forall_mem_append.mp isPart
    obtain ⟨written, writtenLast⟩ := List.forall_mem_append.mp written
    have isLast := isLast a List.mem_cons_self
    have writtenLast := writtenLast a List.mem_cons_self
    by_cases first : l = []
    · subst first
      rw [List.nil_append, List.flatMap_singleton, List.flatMap_singleton]
      exact ⟨_, .one isLast writtenLast⟩
    · obtain ⟨m, front⟩ := ih isPart written first
      rw [List.flatMap_append, List.flatMap_singleton, List.flatMap_append, List.flatMap_singleton]
      exact ⟨_, front.more isLast writtenLast⟩

/-- what stands between braces: members, with or without a separator behind the last one -/
structure Fills (text : Text) (ts : List Tree) (m : Derivation) : Prop where
  root : m.root = .nonterminal objectMembers
  valid : m.Valid
  parted : m.Parted RBRACE
  unworded : ∀ dot, (Symbol.nonterminal objectMembers).StandsAt [NEW] dot → m.Unworded dot
  printed : ∀ t ∈ m.tokens, t.Printed
  written : Written m.tokens text
  trees : m.trees = ts

section
variable {text behind : Text} {ts : List Tree} {m d : Derivation}

theorem IsMembers.fills (h : IsMembers text ts m) : Fills text ts m where
  root := h.isPart.root
  valid := h.isPart.valid
  parted := h.isPart.parted _
  unworded := h.isPart.unworded
  printed := h.isPart.printed
  written := h.written
  trees := h.trees

/-- one member without a separator -/
theorem Fills.one (isPart : IsPart [NEW] typeMember d) (written : Written d.tokens text) :
    Fills (Text.ofString " " ++ text) d.trees (phrase objectMembers [d]) where
  root := rfl
  valid := by
    have mem := members_checked.2.1
    rw [← isPart.root] at mem
    exact .node mem rfl (.cons isPart.valid .nil)
  parted := .node (.inr (by decide)) (.cons (isPart.parted _) (.nil _))
  unworded dot stands := ⟨isPart.unworded dot fun _ => stands objectMembers_mayBeName, trivial⟩
  printed := by
    rw [tokens_phrase, tokensOf_singleton]
    exact isPart.printed
  written := by
    rw [tokens_phrase, tokensOf_singleton]
    exact written_spaced isPart written
  trees := (trees_spliced rfl _).trans (List.append_nil _)

/-- one member without a separator, behind others -/
theorem IsMembers.fills_more (h : IsMembers behind ts m) (isPart : IsPart [NEW] typeMember d)
    (written : Written d.tokens text) :
    Fills (behind ++ (Text.ofString " " ++ text)) (ts ++ d.trees) (phrase objectMembers [m, d]) where
  root := rfl
  valid := by
    have mem := members_checked.2.2.1
    rw [← isPart.root, ← h.isPart.root] at mem
    exact .node mem rfl (.cons h.isPart.valid (.cons isPart.valid .nil))
  parted := .node (.inr (by decide)) (.cons (h.isPart.parted _) (.cons (isPart.parted _) (.nil _)))
  unworded dot stands := by
    refine ⟨h.isPart.unworded dot stands, ?_, trivial⟩
    rw [h.behind]
    exact isPart.unworded _ fun _ => ⟨_, rfl, separatorDot_admits⟩
  printed := by
    rw [tokens_phrase, tokensOf, tokensOf_singleton]
    exact List.forall_mem_append.mpr ⟨h.isPart.printed, isPart.printed⟩
  written := by
    rw [tokens_phrase, tokensOf, tokensOf_singleton]
    refine h.written.append (written_spaced isPart written) fun t mem => ?_
    rw [h.last t mem]
    exact Text.not_begins_cons (goesOn_space _) _
  trees := by
    rw [trees_spliced rfl, treesOf, h.trees, treesOf, treesOf, List.append_nil]

/-- members in braces are an object type -/
theorem Fills.isPart (h : Fills text ts m) (words : List Terminal) :
    IsPart words objectType (phrase objectType [sign LBRACE, m, sign RBRACE]) where
  root := rfl
  part := nofun
  valid := by
    have mem := mem_productions_of_separated members_checked.2.2.2.1
    rw [← h.root] at mem
    exact .node mem rfl (.cons (.leaf _) (.cons h.valid (.cons (.leaf _) .nil)))
  parted ahead := by
    have kept := members_checked.2.2.2.1
    rw [← h.root] at kept
    exact .node (.inl kept) (.cons (.leaf _ _) (.cons h.parted (.cons (.leaf _ _) (.nil _))))
  unworded _ _ := by
    have admits := brace_admits
    rw [← h.root] at admits
    exact ⟨nofun, h.unworded _ fun _ => ⟨_, rfl, admits⟩, nofun, trivial⟩
  printed := by
    rw [tokens_phrase, tokensOf, tokensOf, tokensOf_singleton]
    exact List.forall_mem_append.mpr ⟨List.forall_mem_singleton.mpr ⟨rfl, nofun, nofun⟩,
      List.forall_mem_append.mpr ⟨h.printed, List.forall_mem_singleton.mpr ⟨rfl, nofun, nofun⟩⟩⟩

end

/-- members without a separator behind the last one -/
theorem exists_open_members {α : Type} {f : α → Text} {d : α → Derivation} {l : List α} {a : α}
    (isPart : ∀ b ∈ l ++ [a], IsPart [NEW] typeMember (d b)) (written : ∀ b ∈ l ++ [a], Written (d b).tokens (f b)) :
    ∃ m, Fills (l.flatMap (fun b => Text.ofString " " ++ (f b ++ Text.ofString ";")) ++ (Text.ofString " " ++ f a))
      ((l ++ [a]).flatMap fun b => (d b).trees) m := by
  obtain ⟨isPart, isLast⟩ := List.forall_mem_append.mp isPart
  obtain ⟨written, writtenLast⟩ := List.forall_mem_append.mp written
  have isLast := isLast a List.mem_cons_self
  have writtenLast := writtenLast a List.mem_cons_self
  rw [List.flatMap_append, List.flatMap_singleton]
  by_cases first : l = []
  · subst first
    exact ⟨_, .one isLast writtenLast⟩
  · obtain ⟨m, front⟩ := exists_members isPart written first
    exact ⟨_, front.fills_more isLast writtenLast⟩

end Derivation

/-! ## Object types in writing -/

/-- a space stands behind each semicolon, or in front of each member -/
theorem Text.flatMap_spaced (members : List Text) :
    Text.ofString " " ++ members.flatMap (fun m => m ++ Text.ofString "; ") =
      members.flatMap (fun m => Text.ofString " " ++ (m ++ Text.ofString ";")) ++ Text.ofString " " := by
  induction members with
  | nil => rfl
  | cons m ms ih =>
    rw [List.flatMap_cons, List.flatMap_cons, List.append_assoc, List.append_assoc, ← ih]
    simp only [List.append_assoc]
    rfl

/-- the members between braces -/
theorem Text.braced_concat (members : List Text) {last : Text} (some : last ≠ []) :
    braced (join "; " (members ++ [last])) = Text.ofString "\x7b" ++
      (members.flatMap (fun m => Text.ofString " " ++ (m ++ Text.ofString ";")) ++ (Text.ofString " " ++ last) ++
        Text.ofString " \x7d") := by
  have full : (members.flatMap (fun m => m ++ Text.ofString "; ") ++ last).isEmpty = false :=
    List.isEmpty_eq_false_iff.mpr (List.append_ne_nil_of_right_ne_nil _ some)
  have opening : Text.ofString "\x7b " = Text.ofString "\x7b" ++ Text.ofString " " := rfl
  rw [join_concat, braced, full, ← List.append_assoc (List.flatMap _ members), ← flatMap_spaced]
  show Text.ofString "\x7b " ++ (_ ++ last) ++ Text.ofString " \x7d" = _
  rw [opening]
  simp only [List.append_assoc]

namespace Writes
open Typings.Derivation
variable {text : Text} {ts : List Tree}

/-- members in braces -/
theorem braces {m : Derivation} (h : Fills text ts m) (words : List Terminal) :
    Writes words [.nonterminal objectType] (Text.ofString "\x7b" ++ (text ++ Text.ofString " \x7d"))
      [.node (.phrase objectType) Cursor.start.loc ts] := by
  have isPart := h.isPart words
  refine of_part isPart (List.nil_subset _) ?_ ?_
  · have closing : Written [⟨RBRACE, "\x7d", .start⟩] (Text.ofString " \x7d") := .spaced (.one (.spelled rfl))
    have inner := h.written.append closing fun t _ => Text.not_begins_cons (goesOn_space _) _
    have opening : Written (⟨LBRACE, "\x7b", .start⟩ :: _) _ :=
      .lexeme (.spelled rfl) (not_begins_of_isMark rfl _) inner
    rw [tokens_phrase, tokensOf, tokensOf, tokensOf_singleton]
    exact opening
  · rw [isPart.trees, treesOf, treesOf, treesOf, h.trees]
    exact congrArg (fun ts => [Tree.node (.phrase objectType) Cursor.start.loc ts]) (List.append_nil ts)

section
variable {α : Type} {l : List α} {f : α → Text} {g : α → List Tree}
  (each : ∀ a ∈ l, Writes [NEW] [.nonterminal typeMember] (f a) (g a))
include each

/-- members with a separator behind each, in braces -/
theorem closed_object (words : List Terminal) : Writes words [.nonterminal objectType]
    (Text.ofString "\x7b" ++ (l.flatMap (fun a => Text.ofString " " ++ (f a ++ Text.ofString ";")) ++
      Text.ofString " \x7d")) [.node (.phrase objectType) Cursor.start.loc (l.flatMap g)] := by
  by_cases some : l = []
  · subst some
    have isLeft : LBRACE.spelling? = some "\x7b" := rfl
    have isRight : RBRACE.spelling? = some "\x7d" := rfl
    have row := ((closing isRight rfl []).spaced (List.cons_ne_nil _ _)).punctuation isLeft rfl words
    exact row.node (by decide) (List.nil_subset _) rfl
  · have parts : ∀ a ∈ l, ∃ d, IsPart [NEW] typeMember d ∧ Written d.tokens (f a) ∧ d.trees = g a :=
      fun a ha => (each a ha).exists_part
    choose! d isPart written trees using parts
    obtain ⟨m, members⟩ := exists_members isPart written some
    have whole := braces members.fills words
    rwa [List.flatMap_congr trees] at whole

/-- members with separators between them, in braces -/
theorem object (words : List Terminal) : Writes words [.nonterminal objectType]
    (Text.braced (Text.join "; " (l.map f))) [.node (.phrase objectType) Cursor.start.loc (l.flatMap g)] := by
  have parts : ∀ a ∈ l, ∃ d, IsPart [NEW] typeMember d ∧ Written d.tokens (f a) ∧ d.trees = g a :=
    fun a ha => (each a ha).exists_part
  choose! d isPart written trees using parts
  rcases List.eq_nil_or_concat' l with rfl | ⟨front, a, rfl⟩
  · have isLeft : LBRACE.spelling? = some "\x7b" := rfl
    have isRight : RBRACE.spelling? = some "\x7d" := rfl
    exact ((closing isRight rfl []).punctuation isLeft rfl words).node (by decide) (List.nil_subset _) rfl
  · obtain ⟨m, fills⟩ := exists_open_members isPart written
    have whole := braces fills words
    rw [List.flatMap_congr trees] at whole
    have last := isPart a (List.mem_append_right _ List.mem_cons_self)
    obtain ⟨token, tokens, e⟩ := List.exists_cons_of_ne_nil
      (tokens_ne_nil last.valid (last.root ▸ last.part))
    have some : f a ≠ [] := (e ▸ written a (List.mem_append_right _ List.mem_cons_self)).ne_nil
    rw [List.map_append, List.map_singleton, Text.braced_concat _ some, List.flatMap_map]
    exact whole

end

end Writes

end Typings
