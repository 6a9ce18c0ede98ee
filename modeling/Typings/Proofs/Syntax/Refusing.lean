import Typings.Proofs.Syntax.Ending
import Typings.Proofs.Syntax.Lexemes
/-!
# Tokens that are refused

Behind some tokens a run stops at a token that is refused there.  The reductions that such a token brings
about are those of a token that fits, up to a state that has no action for it.

* `Parser.Settles.exists_refusal`     a token is refused where another one fits;
* `Parser.scannedTo_of_laid`          a text of lexemes is scanned up to one of them;
* `Parser.parse_of_refused`           a text that goes on with a token that is refused;
* `Derivation.parse_of_refusal`       a text with a keyword that may come behind a phrase but does not fit.
-/

namespace Typings

namespace Parser
open Automaton

/-- the reductions that one terminal brings about are those of another one, up to a state without an action
for it, if no phrase that the first one may follow goes on with it -/
theorem Settles.exists_stuck {t u : Terminal} {stack settled : List Frame} (h : Settles t stack settled)
    (ends : ∀ p ∈ productions, (Lookahead.follow p.lhs).contains t = true → p.EndsBefore u)
    (noAction : action (top settled) u = none) :
    ∃ stuck, Settles u stack stuck ∧ action (top stuck) u = none := by
  induction h with
  | refl => exact ⟨_, .refl, noAction⟩
  | @reduce stack below settled p d state act red part go further ih =>
    obtain ⟨stuck, settles, refused⟩ := ih noAction
    obtain ⟨_, item⟩ := item_of_reduce act
    cases act' : action (top stack) u with
    | none => exact ⟨stack, .refl, act'⟩
    | some a =>
      cases a with
      | shift next =>
        have unread := item.unread (ends p item.mem_productions (follow_of_reduce act))
        rw [action_shift act'] at unread
        cases unread
      | reduce q =>
        obtain ⟨_, item'⟩ := item_of_reduce act'
        obtain rfl := item.complete_unique item'
        exact ⟨stuck, .reduce act' red part go settles, refused⟩

/-- such a token is refused -/
theorem Settles.exists_refusal {t : Terminal} {token : Token} {stack settled : List Frame}
    (h : Settles t stack settled) (path : OnPath stack)
    (ends : ∀ p ∈ productions, (Lookahead.follow p.lhs).contains t = true → p.EndsBefore token.kind)
    (noAction : action (top settled) token.kind = none) : ∃ left, Parser.react stack token = .refused left := by
  obtain ⟨stuck, settles, refused⟩ := h.exists_stuck ends noAction
  exact ⟨stuck, (settles.react path).trans (react_of_none refused)⟩

/-- a text of lexemes that stand apart is scanned up to one of them, which is found there -/
theorem scannedTo_of_laid {front more : List Token} {token : Token} {place : Cursor} {text : Text}
    (laid : Laid place text (front ++ token :: more)) {state : Nat} {states : List Nat}
    (along : Along (fun s t => Expects s t.kind ∧ t.Plain s) state front states)
    (expects : Expects (states.getLast?.getD state) token.kind) (plain : token.Plain (states.getLast?.getD state)) :
    ∃ here behind rest, ScannedTo here behind state place text front states ∧
      Token.read? (expected (states.getLast?.getD state)).contains (Pattern.gap behind).2 =
        some (token.kind, token.text, rest) ∧ token.start = here.advance (Pattern.gap behind).1 := by
  induction front generalizing place text state states with
  | nil =>
    cases along
    cases laid with
    | @cons place gap piece rest kind tokens isGap isToken ends _ =>
      obtain ⟨taken, found⟩ := read_lexeme isGap isToken ends expects plain
      exact ⟨place, _, rest, .nil, by rw [taken]; exact found, by rw [taken]⟩
  | cons t front ih =>
    cases along with
    | cons fits further =>
      cases laid with
      | @cons place gap piece rest kind tokens isGap isToken ends laid =>
        rw [List.getLast?_cons, Option.getD_some] at expects plain ⊢
        obtain ⟨here, behind, last, scanned, found, start⟩ := ih laid further expects plain
        obtain ⟨taken, read⟩ := read_lexeme isGap isToken ends fits.1 fits.2
        refine ⟨here, behind, last, ?_, found, start⟩
        have all : ScannedTo here behind _ place (gap ++ (piece ++ rest)) _ _ :=
          .cons (by rw [taken]; exact read) (by rw [taken]; exact scanned)
        rwa [taken] at all

/-- a text is not read if it goes on with a token that is refused behind the tokens in front of it -/
theorem parse_of_refused {last left : List Frame} {tokens : List Token} {states : List Nat} {here : Cursor}
    {text behind rest : Text} {token : Token} (reads : Reads [] tokens states last)
    (scanned : ScannedTo here behind 0 .start text tokens states)
    (found : Token.read? (expected (top last)).contains (Pattern.gap behind).2 = some (token.kind, token.text, rest))
    (start : token.start = here.advance (Pattern.gap behind).1) (refuses : react last token = .refused left) :
    parse text = .error (refusal left token) := by
  obtain ⟨kind, piece, place⟩ := token
  obtain rfl : place = _ := start
  exact (parse_eq_iff text _).mpr ⟨tokens, states, last, here, behind, reads, scanned, .stuck (.refused found refuses)⟩

/-- tokens on the way to a state are read one after the other -/
theorem reads_of_walk {stack : List Frame} {tokens : List Token} {state : Nat} (path : OnPath stack)
    (walk : walk? (top stack) (tokens.map fun t => .terminal t.kind) = some state) :
    ∃ states last, Reads stack tokens states last ∧ OnPath last ∧ top last = state := by
  induction tokens generalizing stack with
  | nil => exact ⟨[], stack, .nil, path, Option.some.inj walk⟩
  | cons t tokens ih =>
    obtain ⟨next, step, walk⟩ := Option.bind_eq_some_iff.mp walk
    have path' : OnPath (⟨next, .leaf t⟩ :: stack) := .cons path step
    obtain ⟨states, last, reads, isLast⟩ := ih path' walk
    exact ⟨_, last, .cons (react_of_next step) reads, isLast⟩

/-- tokens of other names than keywords are read as what they are -/
theorem Reads.along {stack last : List Frame} {tokens : List Token} {states : List Nat}
    (h : Reads stack tokens states last)
    (plain : ∀ t ∈ tokens, t.kind = .NAME → ∀ u : Terminal, u.isWord t.text = false) :
    Along (fun s t => Expects s t.kind ∧ t.Plain s) (top stack) tokens states :=
  h.expects.imp fun _ t mem expects => ⟨expects, fun isName u _ => plain t mem isName u⟩

end Parser

namespace Derivation
open Automaton Typings.Parser

/-- a keyword that may come behind a phrase is refused there if it does not fit -/
theorem Course.refuses {d : Derivation} {t : Terminal} (token : Token) {state next first i : Nat} {p : Production}
    {states : List Nat} {stack : List Frame} (course : Course state d t states next) (path : OnPath stack)
    (isTop : top stack = state) (item : Item state first p i) (here : p.rhs[i]? = some d.root)
    (behind : p.rhs[i + 1]? = some (.terminal t)) (unread : Dot.mayRead ⟨p, i + 1⟩ token.kind = false)
    (ends : ∀ q ∈ productions, (Lookahead.follow q.lhs).contains t = true → q.EndsBefore token.kind) :
    ∃ last left, Parser.Reads stack d.tokens states last ∧ react last token = .refused left := by
  have after := item.advance here course.next
  obtain ⟨_, step⟩ := after.next behind
  obtain ⟨last, reads, path', settles⟩ := course.reads d (fun n isRoot => by
    have step' := course.next
    rw [isRoot] at step'
    exact .next step' step) path .refl isTop
  have noAction : action next token.kind = none := by
    by_contra acts
    have at' : Dot.At ⟨p, i + 1⟩ next := ⟨first, after⟩
    have read := Dot.mayRead_of_expects at' (expects_iff.mpr acts)
    rw [unread] at read
    cases read
  obtain ⟨left, refused⟩ := settles.exists_refusal path' ends noAction
  exact ⟨last, left, reads, refused⟩

/-- **A text is not read if it has a keyword behind a phrase that may come there but does not fit.**  In front
of the phrase are tokens on the way to a place in a production; behind it the production goes on with another
token. -/
theorem parse_of_refusal {front more : List Token} {d : Derivation} {keyword : Terminal} {word text : Text}
    {state first i : Nat} {p : Production} {t : Terminal}
    (walk : walk? 0 (front.map fun t => .terminal t.kind) = some state)
    (plain : ∀ t ∈ front, t.kind = .NAME → ∀ u : Terminal, u.isWord t.text = false)
    (item : Item state first p i) (here : p.rhs[i]? = some d.root) (behind : p.rhs[i + 1]? = some (.terminal t))
    (valid : d.Valid) (ended : d.Ended t) (unworded : d.Unworded (some ⟨p, i⟩))
    (written : Written (front ++ (d.tokens ++ ⟨keyword, word, .start⟩ :: more)) text) (other : keyword ≠ .NAME)
    (comes : ∃ dot ∈ d.dotBehind p i, ∀ s, dot.Behind s → action s keyword ≠ none)
    (unread : Dot.mayRead ⟨p, i + 1⟩ keyword = false)
    (ends : ∀ q ∈ productions, (Lookahead.follow q.lhs).contains t = true → q.EndsBefore keyword) :
    ∃ e, parse text = .error e := by
  obtain ⟨states, next, course⟩ := course_of_ended valid ended item here
  -- the same tokens in their places
  obtain ⟨tokens, same, laid⟩ := written.laid .start
  rw [List.map_append, List.map_append, List.map_cons] at same
  obtain ⟨front', rest, rfl, sameFront, same⟩ := List.map_eq_append_iff.mp same
  obtain ⟨inner, rest, rfl, sameInner, same⟩ := List.map_eq_append_iff.mp same
  obtain ⟨⟨_, _, place⟩, _, rfl, sameToken, -⟩ := List.map_eq_cons_iff.mp same
  cases sameToken
  obtain ⟨e, rfl, alike⟩ := d.exists_of_tokens sameInner
  have course' : Course state e t states next := by
    rw [← course_map Token.kind_unplaced] at course ⊢
    rwa [alike]
  have kinds : (front'.map fun t => Symbol.terminal t.kind) = front.map fun t => .terminal t.kind := by
    have all := congrArg (List.map fun t : Token => Symbol.terminal t.kind) sameFront
    rwa [List.map_map, List.map_map] at all
  have atStart : OnPath [] := .nil
  obtain ⟨before, stack, reads, path, isTop⟩ := reads_of_walk atStart (kinds ▸ walk)
  obtain ⟨last, left, further, refused⟩ := course'.refuses ⟨keyword, word, place⟩ path isTop item
    (root_of_unplaced alike ▸ here) behind unread ends
  have all := reads.append further
  have isState : before.getLast?.getD (top []) = state := reads.top_eq.trans isTop
  have isLast := all.top_eq
  obtain ⟨dot, isBehind, acts⟩ := comes
  have fits : Expects (top last) keyword := by
    have behind := course.dotBehind d item here state dot isBehind
    rw [← isState, ← getLast?_append_getD, isLast] at behind
    exact expects_iff.mpr (acts _ behind)
  -- no name in front of the keyword is read as another one
  have along := reads.along (Token.forall_of_unplaced (P := fun kind text => kind = .NAME →
    ∀ u : Terminal, u.isWord text = false) sameFront plain)
  have known : ∀ dot ∈ some (Dot.mk p i), dot.At state := by
    rintro _ ⟨⟩
    exact ⟨first, item⟩
  have inner := (course.plain d item here known unworded).of_unplaced sameInner fun _ _ _ => Token.Plain.of_unplaced
  have inner := further.expects.and (isTop.symm ▸ inner)
  rw [← reads.top_eq] at inner
  rw [← List.append_assoc] at laid
  obtain ⟨_, _, _, scanned, found, start⟩ := Parser.scannedTo_of_laid laid (along.append inner) (isLast ▸ fits)
    fun isName => absurd isName other
  rw [isLast] at found
  exact ⟨_, parse_of_refused all scanned found start refused⟩

end Derivation

end Typings
