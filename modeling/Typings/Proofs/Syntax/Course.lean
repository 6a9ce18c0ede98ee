import Typings.Proofs.Grammar.Follows
import Typings.Proofs.Syntax.Factoring
/-!
# The states that a derivation goes through

A derivation that the parser finds goes through the states of the automaton: each token leads from a
state to the next, and behind the parts of a phrase the parser is back at the state in front of the
phrase, and reads the phrase.  There the coming token is not read, or the parser would not have
reduced.

* `Derivation.Course state d ahead states next`   from `state`, with `ahead` coming behind it, the
                                   tokens of `d` lead to `states` and `d` itself to `next`;
* `Derivation.Leads`               the course of a whole file;
* `Parser.Reads.stacked`           the derivations on a stack have their courses;
* `Parser.Scanned`                 a text is the tokens, each looked for in the state before it;
* `leads_of_parse`                 a derivation that is found has a course.
-/

namespace Typings

namespace Derivation
open Automaton

/-! ## Courses -/

/-- the class of the first token of a row, or what comes behind the row if it has none -/
def firstKind (ds : List Derivation) (ahead : Terminal) : Terminal :=
  ((tokensOf ds).head?.map (·.kind)).getD ahead

theorem tokensOf_append (ds es : List Derivation) :
    tokensOf (ds ++ es) = tokensOf ds ++ tokensOf es := by
  simp only [tokensOf_eq_flatMap, List.flatMap_append]

theorem firstKind_append (ds es : List Derivation) (ahead : Terminal) :
    firstKind (ds ++ es) ahead = firstKind ds (firstKind es ahead) := by
  unfold firstKind
  rw [tokensOf_append]
  cases tokensOf ds with
  | nil => rfl
  | cons t ts => rfl

theorem firstKind_node (p : Production) (parts : List Derivation) (ahead : Terminal) :
    firstKind [node p parts] ahead = firstKind parts ahead := by
  unfold firstKind
  rw [tokensOf, tokens, tokensOf, List.append_nil]

/-- the symbol behind a dot, and the dot behind the symbol -/
theorem drop_cons {p : Production} {i : Nat} {d : Derivation} {rest : List Derivation}
    (rhs : p.rhs.drop i = (d :: rest).map root) :
    p.rhs[i]? = some d.root ∧ p.rhs.drop (i + 1) = rest.map root := by
  rw [List.map_cons] at rhs
  constructor
  · rw [← List.head?_drop, rhs]
    rfl
  · rw [← List.tail_drop, rhs]
    rfl

theorem firstKind_cons (d : Derivation) (rest : List Derivation) (ahead : Terminal) :
    firstKind (d :: rest) ahead = firstKind [d] (firstKind rest ahead) :=
  firstKind_append [d] rest ahead

mutual

/-- from a state the tokens of a derivation lead to the states, and the derivation itself to the
last state, when a token of the class `ahead` comes behind it -/
inductive Course : Nat → Derivation → Terminal → List Nat → Nat → Prop
  | leaf {state next : Nat} {token : Token} {ahead : Terminal}
      (step : next? state (.terminal token.kind) = some next) :
      Course state (leaf token) ahead [next] next
  | node {state last next : Nat} {p : Production} {parts : List Derivation} {ahead : Terminal}
      {states : List Nat} (mem : p ∈ productions) (roots : parts.map root = p.rhs)
      (inner : CourseAll state parts ahead states last)
      (unread : next? last (.terminal ahead) = none)
      (step : next? state (.nonterminal p.lhs) = some next) :
      Course state (node p parts) ahead states next

/-- the same for a row of derivations -/
inductive CourseAll : Nat → List Derivation → Terminal → List Nat → Nat → Prop
  | nil {state : Nat} {ahead : Terminal} : CourseAll state [] ahead [] state
  | cons {state next last : Nat} {d : Derivation} {rest : List Derivation} {ahead : Terminal}
      {states more : List Nat} (here : Course state d (firstKind rest ahead) states next)
      (further : CourseAll next rest ahead more last) :
      CourseAll state (d :: rest) ahead (states ++ more) last

end

/-- the course of a whole file: no state is read behind it -/
inductive Leads : Derivation → List Nat → Prop
  | node {last : Nat} {p : Production} {parts : List Derivation} {states : List Nat}
      (mem : p ∈ productions) (isFile : p.lhs = .file) (roots : parts.map root = p.rhs)
      (inner : CourseAll 0 parts .END states last) : Leads (node p parts) states

theorem Course.next {state next : Nat} {d : Derivation} {ahead : Terminal} {states : List Nat}
    (h : Course state d ahead states next) : next? state d.root = some next := by
  cases h with
  | leaf step => exact step
  | node mem roots inner unread step => exact step

mutual

/-- a derivation with a course is valid -/
theorem Course.valid : ∀ (d : Derivation) {state : Nat} {ahead : Terminal} {states : List Nat}
    {next : Nat}, Course state d ahead states next → d.Valid
  | .leaf token, _, _, _, _, _ => .leaf token
  | .node _ parts, _, _, _, _, .node mem roots inner _ _ => .node mem roots (CourseAll.valid parts inner)

theorem CourseAll.valid : ∀ (ds : List Derivation) {state : Nat} {ahead : Terminal} {states : List Nat}
    {last : Nat}, CourseAll state ds ahead states last → AllValid ds
  | [], _, _, _, _, _ => .nil
  | d :: rest, _, _, _, _, .cons here further => .cons (Course.valid d here) (CourseAll.valid rest further)

end

theorem Leads.valid {d : Derivation} {states : List Nat} (h : d.Leads states) : d.Valid := by
  cases h with
  | node mem _ roots inner => exact .node mem roots (CourseAll.valid _ inner)

theorem CourseAll.append {state middle last : Nat} {ds es : List Derivation} {ahead : Terminal}
    {states more : List Nat} (h : CourseAll state ds (firstKind es ahead) states middle)
    (h' : CourseAll middle es ahead more last) :
    CourseAll state (ds ++ es) ahead (states ++ more) last := by
  induction ds generalizing state states with
  | nil =>
    cases h
    exact h'
  | cons d rest ih =>
    cases h with
    | cons here further =>
      rw [List.append_assoc]
      refine .cons ?_ (ih further)
      show Course state d (firstKind (rest ++ es) ahead) _ _
      rw [firstKind_append]
      exact here

theorem CourseAll.walk {state last : Nat} {ds : List Derivation} {ahead : Terminal}
    {states : List Nat} (h : CourseAll state ds ahead states last) :
    walk? state (ds.map root) = some last := by
  induction ds generalizing state states with
  | nil =>
    cases h
    rfl
  | cons d rest ih =>
    cases h with
    | cons here further =>
      rw [List.map_cons, walk?, here.next]
      exact ih further

end Derivation

namespace Parser
open Automaton Typings.Derivation

/-! ## Stacks -/

/-- the derivations of a stack have their courses, when a token of the class `ahead` comes next -/
inductive Stacked : List Frame → Terminal → List Nat → Prop
  | nil {ahead : Terminal} : Stacked [] ahead []
  | cons {f : Frame} {below : List Frame} {ahead : Terminal} {states more : List Nat}
      (deeper : Stacked below (firstKind [f.derivation] ahead) states)
      (here : Course (top below) f.derivation ahead more f.state) :
      Stacked (f :: below) ahead (states ++ more)

/-- the uppermost frames of a stack are the course of a row -/
theorem Stacked.take {stack : List Frame} {ahead : Terminal} {states : List Nat}
    (h : Stacked stack ahead states) (n : Nat) :
    ∃ before more, states = before ++ more ∧
      Stacked (stack.drop n) (firstKind ((stack.take n).map (·.derivation)).reverse ahead) before ∧
      CourseAll (top (stack.drop n)) ((stack.take n).map (·.derivation)).reverse ahead more
        (top stack) := by
  induction n generalizing stack ahead states with
  | zero => exact ⟨states, [], (List.append_nil _).symm, h, .nil⟩
  | succ n ih =>
    cases h with
    | nil => exact ⟨[], [], rfl, .nil, .nil⟩
    | @cons f below _ states more deeper here =>
      obtain ⟨before, middle, rfl, deep, row⟩ := ih deeper
      refine ⟨before, middle ++ more, List.append_assoc .., ?_, ?_⟩
      · rw [List.take_succ_cons, List.map_cons, List.reverse_cons, firstKind_append]
        exact deep
      · rw [List.take_succ_cons, List.map_cons, List.reverse_cons]
        refine row.append ?_
        have one : CourseAll _ [f.derivation] ahead _ f.state := .cons here .nil
        rwa [List.append_nil] at one

/-- what a reaction to a token makes of the courses of a stack -/
def Recorded (states : List Nat) : Reaction → Prop
  | .shifted next => ∀ ahead, Stacked next ahead (states ++ [top next])
  | .accepted d => Leads d states
  | .refused _ | .derailed => True

theorem Reacts.recorded {stack : List Frame} {token : Token} {reaction : Reaction} {states : List Nat}
    (reacts : Reacts token stack reaction) (h : Stacked stack token.kind states) : Recorded states reaction := by
  induction reacts with
  | refused => trivial
  | shifted act => exact fun ahead => .cons h (.leaf (action_shift act))
  | @accepted stack p d act red isFile isEnd =>
    obtain ⟨_, mem, _⟩ := action_reduce act
    obtain ⟨rfl, empty, roots⟩ := eq_of_reduce? red
    obtain ⟨before, more, rfl, deep, row⟩ := h.take p.rhs.length
    rw [← empty] at deep row
    cases deep
    rw [isEnd] at row
    exact .node (mem_reductions mem).1 isFile roots row
  | @reduced stack below p d state reaction act red part go _ ih =>
    obtain ⟨_, mem, _⟩ := action_reduce act
    obtain ⟨rfl, rfl, roots⟩ := eq_of_reduce? red
    obtain ⟨before, more, rfl, deep, row⟩ := h.take p.rhs.length
    have step : next? (top (stack.drop p.rhs.length)) (.nonterminal p.lhs) = some state := by
      rw [← goto_eq_next?, go]
    refine ih (.cons ?_ (.node (mem_reductions mem).1 roots row (unread_of_reduce act) step))
    rw [firstKind_node]
    exact deep

/-- the tokens that a stack reads are recorded by their states -/
theorem Reads.stacked {stack left : List Frame} {tokens : List Token} {states before : List Nat}
    (h : Reads stack tokens states left) (stacked : ∀ ahead, Stacked stack ahead before) :
    ∀ ahead, Stacked left ahead (before ++ states) := by
  induction h generalizing before with
  | nil => rwa [List.append_nil]
  | @cons _ _ _ token _ _ shifted _ ih =>
    rw [List.append_cons]
    exact ih ((reacts_of_react shifted fun e => nomatch e).recorded (stacked token.kind))

/-! ## Texts -/

/-- from a place on, a text is the tokens, with ignored text in front of each and at the end; the
first is looked for in a given state, and each other one in the next of the states -/
inductive Scanned : Nat → Cursor → Text → List Token → List Nat → Prop
  | nil {state : Nat} {place : Cursor} {text : Text} (ends : (Pattern.gap text).2 = []) :
      Scanned state place text [] []
  | cons {state next : Nat} {place : Cursor} {text piece rest : Text} {kind : Terminal}
      {tokens : List Token} {states : List Nat}
      (found : Token.read? (expected state).contains (Pattern.gap text).2 = some (kind, piece, rest))
      (further : Scanned next ((place.advance (Pattern.gap text).1).advance piece) rest tokens states) :
      Scanned state place text (⟨kind, piece, place.advance (Pattern.gap text).1⟩ :: tokens)
        (next :: states)

/-- a text that is scanned is scanned up to the gap at its end -/
theorem Scanned.scannedTo {state : Nat} {place : Cursor} {text : Text} {tokens : List Token} {states : List Nat}
    (h : Scanned state place text tokens states) :
    ∃ here behind, ScannedTo here behind state place text tokens states ∧ (Pattern.gap behind).2 = [] := by
  induction h with
  | nil ends => exact ⟨_, _, .nil, ends⟩
  | cons found _ ih =>
    obtain ⟨here, behind, scanned, ends⟩ := ih
    exact ⟨here, behind, .cons found scanned, ends⟩

/-- a text that is scanned up to the gap at its end is scanned -/
theorem ScannedTo.scanned {here place : Cursor} {behind text : Text} {state : Nat} {tokens : List Token}
    {states : List Nat} (h : ScannedTo here behind state place text tokens states)
    (ends : (Pattern.gap behind).2 = []) : Scanned state place text tokens states := by
  induction h with
  | nil => exact .nil ends
  | cons found _ ih => exact .cons found ih

end Parser

/-- a derivation that the parser finds has a course, and the text is its tokens, each looked for in
the state before it -/
theorem leads_of_parse {source : Text} {d : Derivation} (h : parse source = .ok d) :
    ∃ states, d.Leads states ∧ Parser.Scanned 0 .start source d.tokens states := by
  obtain ⟨tokens, states, left, here, behind, reads, scanned, ends⟩ := (parse_eq_iff source _).mp h
  cases ends with
  | accepted ends accepts =>
    have reacts := Parser.reacts_of_react accepts fun e => nomatch e
    obtain ⟨valid, same⟩ := reads.keeps fun f hf => absurd hf List.not_mem_nil
    have e : d.tokens = tokens := (reacts.keeps valid).2.2.trans same
    rw [e]
    exact ⟨states, reacts.recorded (reads.stacked (fun _ => .nil) _), scanned.scanned ends⟩

end Typings
