import Typings.Proofs.Syntax.Course
/-!
# A derivation with a course is found

When the tokens of a derivation are read in the states of its course, the parser puts the derivation
together again: each token brings about the reductions that its course tells, since it can come
behind the phrases that end in front of it.

* `Parser.Settles`           the reductions that a coming token brings about;
* `Derivation.Course.reads`  a derivation with a course is put on the stack;
* `parse_eq_ok_iff`          the derivation of a text is the one with a course that the text scans by.
-/

namespace Typings

namespace Parser
open Automaton Typings.Derivation

/-! ## Reductions -/

/-- the reductions that a token of a class brings about turn a stack into another -/
inductive Settles (t : Terminal) : List Frame → List Frame → Prop
  | refl {stack : List Frame} : Settles t stack stack
  | reduce {stack below settled : List Frame} {p : Production} {d : Derivation} {state : Nat}
      (act : action (top stack) t = some (.reduce p)) (red : reduce? p stack = some (d, below))
      (part : p.lhs ≠ .file) (go : goto (top below) p.lhs = some state)
      (further : Settles t (⟨state, d⟩ :: below) settled) : Settles t stack settled

theorem Settles.trans {t : Terminal} {stack middle settled : List Frame}
    (h : Settles t stack middle) (h' : Settles t middle settled) : Settles t stack settled := by
  induction h with
  | refl => exact h'
  | reduce act red part go _ ih => exact .reduce act red part go (ih h')

/-- what can be done behind the reductions can be done in front of them -/
theorem Settles.reacts {token : Token} {stack settled : List Frame} {reaction : Reaction}
    (h : Settles token.kind stack settled) (reacts : Reacts token settled reaction) :
    Reacts token stack reaction := by
  induction h with
  | refl => exact reacts
  | reduce act red part go _ ih => exact .reduced act red part go (ih reacts)

theorem Settles.path {t : Terminal} {stack settled : List Frame} (h : Settles t stack settled)
    (path : OnPath stack) : OnPath settled := by
  induction h with
  | refl => exact path
  | @reduce stack below settled p d state act red part go _ ih =>
    obtain ⟨rfl, rfl, _⟩ := eq_of_reduce? red
    exact ih (.cons (path.drop _) ((goto_eq_next? _ _).symm.trans go))

/-- the reductions are part of the reaction to a token -/
theorem Settles.react {token : Token} {stack settled : List Frame}
    (h : Settles token.kind stack settled) (path : OnPath stack) :
    Parser.react stack token = Parser.react settled token :=
  (h.reacts (reacts_of_react rfl (react_ne_derailed token (h.path path)))).react_eq

/-! ## Tokens -/

/-- a token that a state reads is put on the stack -/
theorem react_of_next {stack : List Frame} {token : Token} {next : Nat}
    (step : next? (top stack) (.terminal token.kind) = some next) :
    react stack token = .shifted (⟨next, .leaf token⟩ :: stack) :=
  (Reacts.shifted (action_of_next step)).react_eq

/-- a token without an action is refused -/
theorem react_of_none {stack : List Frame} {token : Token} (none : action (top stack) token.kind = none) :
    react stack token = .refused stack :=
  (Reacts.refused none).react_eq

end Parser

/-! ## Courses -/

namespace Derivation
open Automaton Typings.Parser

/-- a course begins by reading the first token -/
theorem Course.first {state next : Nat} {d : Derivation} {ahead : Terminal} {states : List Nat}
    (h : Course state d ahead states next) (part : d.root ≠ .nonterminal .file) :
    ∃ after, next? state (.terminal (firstKind [d] ahead)) = some after := by
  match d, h with
  | .leaf token, .leaf step => exact ⟨_, step⟩
  | .node p parts, .node mem roots inner unread step =>
    match parts, inner with
    | [], _ =>
      refine absurd ?_ part
      rw [root_node, eq_file_of_rhs_nil p mem roots.symm]
    | e :: rest, .cons here further =>
      have inRhs : e.root ∈ p.rhs := by
        rw [← roots]
        exact List.mem_cons_self
      have part' : e.root ≠ .nonterminal .file := fun isFile =>
        file_not_mem_rhs p mem (isFile ▸ inRhs)
      rw [firstKind_node, firstKind_cons]
      exact here.first part'

/-- a row begins by reading the first token -/
theorem CourseAll.first {state last : Nat} {d : Derivation} {rest : List Derivation}
    {ahead : Terminal} {states : List Nat} (h : CourseAll state (d :: rest) ahead states last)
    (part : d.root ≠ .nonterminal .file) :
    ∃ after, next? state (.terminal (firstKind (d :: rest) ahead)) = some after := by
  cases h with
  | cons here further =>
    rw [firstKind_cons]
    exact here.first part

/-- what comes behind a part of a production can come there -/
theorem continues_of_part {start state next last : Nat} {p : Production} {front : List Symbol}
    {n : Nonterminal} {rest : List Derivation} {ahead : Terminal} {states : List Nat}
    (mem : p ∈ productions) (rhs : p.rhs = front ++ .nonterminal n :: rest.map root)
    (walk : walk? start front = some state) (continues : Continues start p.lhs ahead)
    (step : next? state (.nonterminal n) = some next)
    (further : CourseAll next rest ahead states last) :
    Continues state n (firstKind rest ahead) := by
  cases rest with
  | nil => exact .last mem rhs walk step continues
  | cons e more =>
    have inRhs : e.root ∈ p.rhs := by
      rw [rhs]
      exact List.mem_append_right _ (List.mem_cons_of_mem _ List.mem_cons_self)
    have part : e.root ≠ .nonterminal .file := fun isFile =>
      file_not_mem_rhs p mem (isFile ▸ inRhs)
    obtain ⟨after, reads⟩ := further.first part
    exact .next step reads

theorem walk?_append {start state : Nat} {front : List Symbol} (more : List Symbol)
    (h : walk? start front = some state) : walk? start (front ++ more) = walk? state more := by
  induction front generalizing start with
  | nil =>
    cases h
    rfl
  | cons s rest ih =>
    obtain ⟨middle, hm, h⟩ := Option.bind_eq_some_iff.mp h
    rw [List.cons_append, walk?, hm]
    exact ih h

theorem length_of_derivations {frames : List Frame} {ds : List Derivation}
    (h : frames.map (·.derivation) = ds.reverse) : frames.length = ds.length := by
  have same := congrArg List.length h
  rwa [List.length_map, List.length_reverse] at same

mutual

/-- the tokens of a derivation with a course are read, and behind them the coming token puts the
derivation on the stack -/
theorem Course.reads : ∀ (d : Derivation) {state : Nat} {ahead : Terminal} {states : List Nat}
    {next : Nat}, Course state d ahead states next →
    (∀ n, d.root = .nonterminal n → Continues state n ahead) →
    ∀ {stack below : List Frame}, OnPath stack → Settles (firstKind [d] ahead) stack below →
      top below = state →
        ∃ last, Parser.Reads stack d.tokens states last ∧ OnPath last ∧
          Settles ahead last (⟨next, d⟩ :: below)
  | .leaf token, _, _, _, next, .leaf step, _, stack, below, path, settles, isTop => by
    have settles : Settles token.kind stack below := settles
    rw [← isTop] at step
    exact ⟨_, .cons ((settles.react path).trans (react_of_next step)) .nil, .cons (settles.path path) step,
      .refl⟩
  | .node p parts, state, ahead, states, next, .node mem roots inner unread step, continues,
      stack, below, path, settles, isTop => by
    have behind := continues p.lhs rfl
    rw [firstKind_node] at settles
    obtain ⟨last, frames, reads, lastPath, settled, parts', atEnd⟩ :=
      CourseAll.reads parts inner mem (show p.rhs = [] ++ parts.map root from roots.symm) rfl behind path settles isTop
    refine ⟨last, reads, lastPath, settled.trans ?_⟩
    have walk := inner.walk
    rw [roots] at walk
    have act := action_of_continues mem walk behind unread
    have len : frames.length = p.rhs.length := by
      rw [length_of_derivations parts', ← roots, List.length_map]
    have red : reduce? p (frames ++ below) = some (.node p parts, below) := by
      rw [reduce?, ← len, List.take_left, List.drop_left, parts', List.reverse_reverse,
        if_pos roots]
    rw [← atEnd] at act
    refine .reduce act red (ne_file_of_next step) ?_ .refl
    rw [isTop, goto_eq_next?, step]

/-- the same for the parts of a production that are still to be read -/
theorem CourseAll.reads : ∀ (ds : List Derivation) {start state : Nat} {ahead : Terminal}
    {states : List Nat} {atEnd : Nat} {p : Production} {front : List Symbol},
    CourseAll state ds ahead states atEnd → p ∈ productions → p.rhs = front ++ ds.map root →
    walk? start front = some state → Continues start p.lhs ahead →
    ∀ {stack below : List Frame}, OnPath stack → Settles (firstKind ds ahead) stack below →
      top below = state →
        ∃ last frames, Parser.Reads stack (tokensOf ds) states last ∧ OnPath last ∧
          Settles ahead last (frames ++ below) ∧ frames.map (·.derivation) = ds.reverse ∧
            top (frames ++ below) = atEnd
  | [], _, _, _, _, _, _, _, .nil, _, _, _, _, stack, below, path, settles, isTop =>
    ⟨stack, [], .nil, path, settles, rfl, isTop⟩
  | d :: rest, start, state, ahead, _, atEnd, p, front,
      @CourseAll.cons _ next _ _ _ _ _ _ here further, mem, rhs, walk, continues, stack, below, path, settles, isTop => by
    have step := here.next
    rw [List.map_cons] at rhs
    rw [firstKind_cons] at settles
    obtain ⟨middle, reads, middlePath, settled⟩ := Course.reads d here (fun n isRoot => by
      rw [isRoot] at rhs step
      exact continues_of_part mem rhs walk continues step further) path settles isTop
    have walk' : walk? start (front ++ [d.root]) = some next := by
      rw [walk?_append _ walk, walk?, step]
      rfl
    rw [List.append_cons] at rhs
    obtain ⟨last, frames, more, lastPath, settled', parts, isLast⟩ :=
      CourseAll.reads rest further mem rhs walk' continues middlePath settled rfl
    refine ⟨last, frames ++ [⟨next, d⟩], reads.append more, lastPath, ?_, ?_, ?_⟩
    · rw [List.append_assoc]
      exact settled'
    · rw [List.map_append, parts, List.reverse_cons]
      rfl
    · rw [List.append_assoc]
      exact isLast

end

end Derivation

/-! ## Whole files -/

namespace Parser
open Automaton Typings.Derivation

/-- the tokens of a derivation with a course are read, and behind them the end of the text accepts it -/
theorem reads_of_leads {d : Derivation} {states : List Nat} (leads : d.Leads states) :
    ∃ stack, Reads [] d.tokens states stack ∧
      ∀ token : Token, token.kind = .END → react stack token = .accepted d := by
  cases leads with
  | @node last p parts _ mem isFile roots inner =>
    have ends : Continues 0 p.lhs .END := by
      rw [isFile]
      exact .file
    obtain ⟨stack, frames, reads, path, settled, parts', atEnd⟩ :=
      CourseAll.reads parts inner mem (show p.rhs = [] ++ parts.map root from roots.symm) rfl ends .nil .refl rfl
    rw [List.append_nil] at settled atEnd
    refine ⟨stack, reads, fun token isEnd => ?_⟩
    rw [← isEnd] at settled
    have walk := inner.walk
    rw [roots] at walk
    have act := action_of_continues mem walk ends (next?_end last)
    rw [← atEnd, ← isEnd] at act
    have len : frames.length = p.rhs.length := by
      rw [length_of_derivations parts', ← roots, List.length_map]
    have red : reduce? p frames = some (.node p parts, []) := by
      rw [reduce?, ← len, List.take_length, List.drop_length, parts', List.reverse_reverse,
        if_pos roots]
    exact (settled.reacts (.accepted act red isFile isEnd)).react_eq

/-- a derivation with a course is the one that the parser finds in a text that scans by it -/
theorem parse_of_leads {source : Text} {d : Derivation} {states : List Nat} (leads : d.Leads states)
    (scanned : Scanned 0 .start source d.tokens states) : parse source = .ok d := by
  obtain ⟨stack, reads, accepts⟩ := reads_of_leads leads
  obtain ⟨here, behind, scanned, ends⟩ := scanned.scannedTo
  exact (parse_eq_iff source _).mpr
    ⟨_, _, stack, here, behind, reads, scanned, .accepted ends (accepts (endToken _) rfl)⟩

end Parser

/-- the derivation of a text is the one with a course that the text scans by -/
theorem parse_eq_ok_iff (source : Text) (d : Derivation) :
    parse source = .ok d ↔
      ∃ states, d.Leads states ∧ Parser.Scanned 0 .start source d.tokens states := by
  constructor
  · exact leads_of_parse
  · rintro ⟨states, leads, scanned⟩
    exact Parser.parse_of_leads leads scanned

end Typings
