import Typings.Proofs.Syntax.Feeding
import Typings.Proofs.Token.Reading
/-!
# Texts that scan by a course

In each state of a course the coming token may come.  So a text scans by the course if its tokens
stand apart and no name in it is a keyword that may come in its place.

* `Parser.Along`             what holds of each token and the state in which it is looked for;
* `Derivation.Leads.expects` each token may come in the state before it;
* `Laid`                     a text is the tokens, and nothing behind a token makes it longer;
* `Parser.Scanned.plain`     no name is a keyword that may come in its place;
* `Parser.scanned_of_laid`   a text of tokens that stand apart scans.
-/

namespace Typings

namespace Parser
open Automaton

/-- a property of each token and the state in which it is looked for -/
inductive Along (P : Nat → Token → Prop) : Nat → List Token → List Nat → Prop
  | nil {state : Nat} : Along P state [] []
  | cons {state next : Nat} {token : Token} {tokens : List Token} {states : List Nat}
      (here : P state token) (further : Along P next tokens states) :
      Along P state (token :: tokens) (next :: states)

theorem Along.imp {P Q : Nat → Token → Prop} {state : Nat} {tokens : List Token} {states : List Nat}
    (h : Along P state tokens states) (imp : ∀ s, ∀ t ∈ tokens, P s t → Q s t) :
    Along Q state tokens states := by
  induction h with
  | nil => exact .nil
  | cons here _ ih =>
    exact .cons (imp _ _ List.mem_cons_self here) (ih fun s t mem => imp s t (List.mem_cons_of_mem _ mem))

theorem Along.and {P Q : Nat → Token → Prop} {state : Nat} {tokens : List Token} {states : List Nat}
    (h : Along P state tokens states) (h' : Along Q state tokens states) :
    Along (fun s t => P s t ∧ Q s t) state tokens states := by
  induction h with
  | nil => exact .nil
  | cons here _ ih =>
    cases h' with
    | cons here' further => exact .cons ⟨here, here'⟩ (ih further)

/-- what holds of a row of tokens holds of those behind the first ones, from the state there on -/
theorem Along.behind {P Q : Nat → Token → Prop} {state : Nat} {tokens more : List Token}
    {states after : List Nat} (front : Along Q state tokens states)
    (h : Along P state (tokens ++ more) (states ++ after)) :
    Along P (states.getLast?.getD state) more after := by
  induction front with
  | nil => exact h
  | cons _ _ ih =>
    cases h with
    | cons _ further =>
      rw [List.getLast?_cons, Option.getD_some]
      exact ih further

/-- what holds of changed tokens -/
theorem Along.of_map {P : Nat → Token → Prop} {f : Token → Token} {state : Nat} {tokens : List Token}
    {states : List Nat} (h : Along P state (tokens.map f) states) :
    Along (fun s t => P s (f t)) state tokens states := by
  induction tokens generalizing state states with
  | nil =>
    cases h
    exact .nil
  | cons t ts ih =>
    cases h with
    | cons here further => exact .cons here (ih further)

/-- a token may come in a state -/
def Expects (state : Nat) (t : Terminal) : Prop := (expected state).contains t = true

theorem expects_iff {state : Nat} {t : Terminal} : Expects state t ↔ action state t ≠ none := by
  unfold Expects expected action
  cases nth? state rows with
  | none => simp
  | some row =>
    show (row.actions.map (·.1)).contains t = true ↔ row.actions.lookup t ≠ none
    rw [List.contains_iff_mem, ← Option.isSome_iff_ne_none, List.lookup_isSome_iff]
    constructor
    · intro h
      obtain ⟨r, hr, rfl⟩ := List.mem_map.mp h
      exact ⟨r, hr, beq_self_eq_true _⟩
    · rintro ⟨r, hr, e⟩
      exact List.mem_map.mpr ⟨r, hr, (eq_of_beq e).symm⟩

/-- a token that is read may come -/
theorem expects_of_react {stack next : List Frame} {token : Token}
    (h : react stack token = .shifted next) : Expects (top stack) token.kind := by
  rw [expects_iff]
  cases reacts_of_react h fun e => nomatch e with
  | shifted act => exact fun none => nomatch none.symm.trans act
  | reduced act => exact fun none => nomatch none.symm.trans act

theorem Reads.expects {stack last : List Frame} {tokens : List Token} {states : List Nat}
    (h : Reads stack tokens states last) :
    Along (fun s t => Expects s t.kind) (top stack) tokens states := by
  induction h with
  | nil => exact .nil
  | cons react _ ih => exact .cons (expects_of_react react) ih

end Parser

open Typings.Parser in
/-- each token of a derivation with a course may come in the state before it -/
theorem Derivation.Leads.expects {d : Derivation} {states : List Nat} (h : d.Leads states) :
    Along (fun s t => Expects s t.kind) 0 d.tokens states := by
  obtain ⟨_, reads, _⟩ := reads_of_leads h
  exact reads.expects

/-! ## Texts -/

/-- from a place on, a text is a row of lexemes with gaps around them, and nothing behind a lexeme
makes it longer -/
inductive Laid : Cursor → Text → List Token → Prop
  | nil {place : Cursor} {gap : Text} (isGap : Gap gap []) : Laid place gap []
  | cons {place : Cursor} {gap piece rest : Text} {kind : Terminal} {tokens : List Token}
      (isGap : Gap gap (piece ++ rest)) (isToken : kind.Matches piece [])
      (ends : ¬ rest.Begins kind.goesOn)
      (further : Laid ((place.advance gap).advance piece) rest tokens) :
      Laid place (gap ++ (piece ++ rest)) (⟨kind, piece, place.advance gap⟩ :: tokens)

/-- a space makes no token longer -/
theorem Terminal.goesOn_space (t : Terminal) : t.goesOn (.scalar ' ') = false := by
  cases t <;> decide

/-- blanks are a gap in front of a lexeme -/
theorem gap_blanks {kind : Terminal} {gap piece : Text} (all : ∀ x ∈ gap, x.isBlank = true) (rest : Text)
    (h : kind.Matches piece []) : Gap gap (piece ++ rest) := by
  obtain ⟨x, more, rfl, blank, _⟩ := h.first
  by_cases none : gap = []
  · exact none ▸ .nil _
  · have here : Ignorable gap ([] ++ (x :: more ++ rest)) := by
      refine .blank none all ?_
      rw [List.nil_append, List.cons_append, Text.begins_cons, blank]
      exact Bool.false_ne_true
    rw [← List.append_nil gap]
    exact .cons here (.nil _)

theorem gap_space {kind : Terminal} {piece : Text} (rest : Text) (h : kind.Matches piece []) :
    Gap " " (piece ++ rest) :=
  gap_blanks (by decide) rest h

/-- a token that may come is no name that is read as a keyword -/
def Token.Plain (state : Nat) (t : Token) : Prop :=
  t.kind = .NAME → ∀ u, Parser.Expects state u → u.isWord t.text = false

namespace Parser

/-- a name in a text that scans is none of the keywords that may come in its place -/
theorem Scanned.plain {state : Nat} {place : Cursor} {text : Text} {tokens : List Token}
    {states : List Nat} (h : Scanned state place text tokens states) :
    Along (fun s t => t.Plain s) state tokens states := by
  induction h with
  | nil => exact .nil
  | cons found _ ih =>
    refine .cons (fun isName u admits => ?_) ih
    cases isName
    exact Token.not_isWord_of_read? found u admits

/-- a lexeme is found behind a gap, where it may come -/
theorem read_lexeme {gap piece rest : Text} {kind : Terminal} {state : Nat} {start : Cursor}
    (isGap : Gap gap (piece ++ rest)) (isToken : kind.Matches piece []) (ends : ¬ rest.Begins kind.goesOn)
    (expects : Expects state kind) (plain : Token.Plain state ⟨kind, piece, start⟩) :
    Pattern.gap (gap ++ (piece ++ rest)) = (gap, piece ++ rest) ∧
      Token.read? (Automaton.expected state).contains (piece ++ rest) = some (kind, piece, rest) :=
  have whole := isToken.before ends
  ⟨Pattern.gap_of_isGap isGap whole.ignored, Token.read?_of_matches whole expects plain ends⟩

/-- a text of lexemes that stand apart scans -/
theorem scanned_of_laid {place : Cursor} {text : Text} {tokens : List Token} (laid : Laid place text tokens)
    {state : Nat} {states : List Nat}
    (along : Along (fun s t => Expects s t.kind ∧ t.Plain s) state tokens states) :
    Scanned state place text tokens states := by
  induction laid generalizing state states with
  | @nil place gap isGap =>
    cases along
    have taken := Pattern.gap_of_isGap isGap rfl
    rw [List.append_nil] at taken
    exact .nil (congrArg Prod.snd taken)
  | @cons place gap piece rest kind tokens isGap isToken ends _ ih =>
    cases along with
    | cons here further =>
      obtain ⟨taken, found⟩ := read_lexeme isGap isToken ends here.1 here.2
      have scanned : Scanned _ place (gap ++ (piece ++ rest)) _ _ :=
        .cons (by rw [taken]; exact found) (by rw [taken]; exact ih further)
      rwa [taken] at scanned

end Parser

end Typings
