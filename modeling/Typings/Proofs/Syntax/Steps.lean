import Typings.Proofs.Syntax.Stack
/-!
# What the parser can do

A reaction to a token is a row of reductions and a last action, and a run is a row of tokens that are read and
an end.  Both are told here without fuel, so that what they keep is proved by cases.

* `Parser.Reacts`              the reductions for a token, and the last action;
* `Parser.Reacts.react_eq`     what a stack can do with a token is what it does;
* `Parser.Reads`               the tokens that a stack reads one after the other;
* `Parser.ScannedTo`           the same tokens in the text, up to a place in front of a rest;
* `Parser.Stuck`, `Parser.Ends`   how a run ends at a place;
* `parse_eq_iff`               a text is parsed by reading tokens up to a place where the run ends;
* `parse_ne_derailed`          this place is in the text or at its end.
-/

namespace Typings

namespace Parser
open Automaton

/-! ## Reactions -/

/-- what a reduction combines, and what it leaves -/
theorem eq_of_reduce? {p : Production} {stack below : List Frame} {d : Derivation}
    (h : reduce? p stack = some (d, below)) :
    d = .node p ((stack.take p.rhs.length).map (·.derivation)).reverse ∧ below = stack.drop p.rhs.length ∧
      ((stack.take p.rhs.length).map (·.derivation)).reverse.map Derivation.root = p.rhs := by
  rw [reduce?] at h
  split at h
  · rename_i roots
    cases h
    exact ⟨rfl, rfl, roots⟩
  · cases h

/-- what a stack can do with a token: a last action, or a reduction and then what the stack behind it can do -/
inductive Reacts (token : Token) : List Frame → Reaction → Prop
  | refused {stack : List Frame} (none : action (top stack) token.kind = none) :
      Reacts token stack (.refused stack)
  | shifted {stack : List Frame} {state : Nat} (act : action (top stack) token.kind = some (.shift state)) :
      Reacts token stack (.shifted (⟨state, .leaf token⟩ :: stack))
  | accepted {stack : List Frame} {p : Production} {d : Derivation}
      (act : action (top stack) token.kind = some (.reduce p)) (red : reduce? p stack = some (d, []))
      (isFile : p.lhs = .file) (isEnd : token.kind = .END) : Reacts token stack (.accepted d)
  | reduced {stack below : List Frame} {p : Production} {d : Derivation} {state : Nat} {reaction : Reaction}
      (act : action (top stack) token.kind = some (.reduce p)) (red : reduce? p stack = some (d, below))
      (part : p.lhs ≠ .file) (go : goto (top below) p.lhs = some state)
      (further : Reacts token (⟨state, d⟩ :: below) reaction) : Reacts token stack reaction

theorem reacts_of_reactWithin {fuel : Nat} {stack : List Frame} {token : Token} {reaction : Reaction}
    (h : reactWithin fuel stack token = reaction) (fits : reaction ≠ .derailed) : Reacts token stack reaction := by
  subst h
  induction fuel generalizing stack with
  | zero => exact absurd rfl fits
  | succ fuel ih =>
    rw [reactWithin] at fits ⊢
    cases act : action (top stack) token.kind with
    | none => exact .refused act
    | some act' =>
      cases act' with
      | shift state => exact .shifted act
      | reduce p =>
        simp only [act] at fits ⊢
        cases red : reduce? p stack with
        | none =>
          simp only [red] at fits
          exact absurd rfl fits
        | some found =>
          obtain ⟨d, below⟩ := found
          simp only [red] at fits ⊢
          by_cases isFile : p.lhs = .file
          · rw [if_pos isFile] at fits ⊢
            by_cases done : (below.isEmpty && token.kind == .END) = true
            · obtain ⟨empty, isEnd⟩ := Bool.and_eq_true_iff.mp done
              rw [List.isEmpty_iff.mp empty] at red
              rw [if_pos done]
              exact .accepted act red isFile (eq_of_beq isEnd)
            · rw [if_neg done] at fits
              exact absurd rfl fits
          · rw [if_neg isFile] at fits ⊢
            cases go : goto (top below) p.lhs with
            | none =>
              simp only [go] at fits
              exact absurd rfl fits
            | some state =>
              simp only [go] at fits ⊢
              exact .reduced act red isFile go (ih fits)

/-- any fuel that is enough for the reductions is as good as any other -/
theorem Reacts.reactWithin_eq {fuel : Nat} {stack : List Frame} {token : Token} {reaction : Reaction}
    (h : Reacts token stack reaction) (enough : Fuelled (fuel + 1) stack) :
    reactWithin (fuel + 1) stack token = reaction := by
  induction h generalizing fuel with
  | refused none => rw [reactWithin, none]
  | shifted act => rw [reactWithin, act]
  | accepted act red isFile isEnd =>
    rw [reactWithin, act, isEnd]
    simp only [red, if_pos isFile]
    rfl
  | @reduced stack below p d state reaction act red part go _ ih =>
    obtain ⟨isNode, rfl, roots⟩ := eq_of_reduce? red
    have root : d.root = .nonterminal p.lhs := by rw [isNode, Derivation.root_node]
    have same := (roots_of_take p.rhs.length stack).symm.trans roots
    have deep : p.rhs.length ≤ stack.length := by
      have count := congrArg List.length roots
      rw [List.length_map, List.length_reverse, List.length_map, List.length_take] at count
      omega
    obtain ⟨_, mem, _⟩ := action_reduce act
    -- the phrase on the stack leaves enough fuel for the reductions behind it
    have behind : Fuelled fuel (⟨state, d⟩ :: stack.drop p.rhs.length) :=
      enough.reduce same deep (mem_reductions mem).1 part root
    obtain ⟨fuel, rfl⟩ := Nat.exists_eq_succ_of_ne_zero (Nat.ne_zero_of_lt behind)
    rw [reactWithin, act]
    simp only [red, if_neg part, go]
    exact ih behind

/-- a reaction that does not derail is one that can be -/
theorem reacts_of_react {stack : List Frame} {token : Token} {reaction : Reaction}
    (h : react stack token = reaction) (fits : reaction ≠ .derailed) : Reacts token stack reaction :=
  reacts_of_reactWithin h fits

/-- **What a stack can do with a token is what it does.** -/
theorem Reacts.react_eq {stack : List Frame} {token : Token} {reaction : Reaction}
    (h : Reacts token stack reaction) : react stack token = reaction := by
  have enough := fuelled stack
  rw [react]
  obtain ⟨fuel, e⟩ := Nat.exists_eq_succ_of_ne_zero (Nat.ne_zero_of_lt enough)
  rw [e] at enough ⊢
  exact h.reactWithin_eq enough

/-! ## Rows of tokens -/

/-- a stack reads tokens one after the other, and comes to the states behind them -/
inductive Reads : List Frame → List Token → List Nat → List Frame → Prop
  | nil {stack : List Frame} : Reads stack [] [] stack
  | cons {stack next last : List Frame} {token : Token} {tokens : List Token} {states : List Nat}
      (react : Parser.react stack token = .shifted next) (further : Reads next tokens states last) :
      Reads stack (token :: tokens) (top next :: states) last

theorem Reads.top_eq {stack last : List Frame} {tokens : List Token} {states : List Nat}
    (h : Reads stack tokens states last) : states.getLast?.getD (top stack) = top last := by
  induction h with
  | nil => rfl
  | cons _ _ ih => rw [List.getLast?_cons, Option.getD_some, ih]

theorem Reads.append {stack middle last : List Frame} {ts us : List Token} {states more : List Nat}
    (h : Reads stack ts states middle) (h' : Reads middle us more last) :
    Reads stack (ts ++ us) (states ++ more) last := by
  induction h with
  | nil => exact h'
  | cons react _ ih => exact .cons react (ih h')

/-- a stack that reads tokens stays on its path -/
theorem Reads.path {stack last : List Frame} {tokens : List Token} {states : List Nat}
    (h : Reads stack tokens states last) (path : OnPath stack) : OnPath last := by
  induction h with
  | nil => exact path
  | @cons stack next last token _ _ shifted _ ih =>
    have fits := react_fits token path
    rw [shifted] at fits
    exact ih fits.1

/-- from a place on, a text is the tokens with ignored text in front of each, up to a place in front of a
rest; each token is looked for in the state before it -/
inductive ScannedTo (here : Cursor) (behind : Text) : Nat → Cursor → Text → List Token → List Nat → Prop
  | nil {state : Nat} : ScannedTo here behind state here behind [] []
  | cons {state next : Nat} {place : Cursor} {text piece rest : Text} {kind : Terminal} {tokens : List Token}
      {states : List Nat}
      (found : Token.read? (expected state).contains (Pattern.gap text).2 = some (kind, piece, rest))
      (further : ScannedTo here behind next ((place.advance (Pattern.gap text).1).advance piece) rest tokens
        states) :
      ScannedTo here behind state place text (⟨kind, piece, place.advance (Pattern.gap text).1⟩ :: tokens)
        (next :: states)

/-! ## Runs -/

/-- what the parser finds at a place in front of a text, behind the last token, if it cannot go on -/
inductive Stuck (stack : List Frame) (place : Cursor) (text : Text) (last : Option Token) : SyntaxError → Prop
  | refused {kind : Terminal} {piece rest : Text} {left : List Frame}
      (found : Token.read? (expected (top stack)).contains (Pattern.gap text).2 = some (kind, piece, rest))
      (refuses : react stack ⟨kind, piece, place.advance (Pattern.gap text).1⟩ = .refused left) :
      Stuck stack place text last (refusal left ⟨kind, piece, place.advance (Pattern.gap text).1⟩)
  | missing {x : CodePoint} {rest : Text} (behind : (Pattern.gap text).2 = x :: rest)
      (none : Token.read? (expected (top stack)).contains (x :: rest) = none) :
      Stuck stack place text last (Parser.missing stack (place.advance (Pattern.gap text).1) x rest last)
  | ended {left : List Frame} (ends : (Pattern.gap text).2 = [])
      (refuses : react stack (endToken last) = .refused left) :
      Stuck stack place text last (refusal left (endToken last))

/-- how a run ends at a place in front of a text, behind the last token -/
inductive Ends (stack : List Frame) (place : Cursor) (text : Text) (last : Option Token) :
    Except SyntaxError Derivation → Prop
  | accepted {d : Derivation} (ends : (Pattern.gap text).2 = [])
      (accepts : react stack (endToken last) = .accepted d) : Ends stack place text last (.ok d)
  | stuck {e : SyntaxError} (stuck : Stuck stack place text last e) : Ends stack place text last (.error e)

/-- a token takes at least one code point off the text -/
theorem length_lt_of_read? {admitted : Terminal → Bool} {text piece rest : Text} {kind : Terminal}
    (found : Token.read? admitted (Pattern.gap text).2 = some (kind, piece, rest)) : rest.length < text.length := by
  obtain ⟨isToken, whole⟩ := Token.matches_of_read? found
  have some := List.length_pos_iff.mpr isToken.ne_nil
  have parts := congrArg List.length (Pattern.gap_append text)
  rw [← whole, List.length_append, List.length_append] at parts
  omega

/-- the last token of a row, or the one before the row -/
theorem getLast?_cons_or (token : Token) (tokens : List Token) (last : Option Token) :
    (token :: tokens).getLast?.or last = tokens.getLast?.or (some token) := by
  rw [List.getLast?_cons, Option.some_or, Option.or_some]

/-- a run with a step for each code point reads a row of tokens and then ends -/
theorem run_ends {fuel : Nat} {stack : List Frame} {place : Cursor} {text : Text} {last : Option Token}
    (path : OnPath stack) (enough : text.length < fuel) :
    ∃ tokens states left here behind, Reads stack tokens states left ∧
      ScannedTo here behind (top stack) place text tokens states ∧
        Ends left here behind (tokens.getLast?.or last) (run fuel stack place text last) := by
  induction fuel generalizing stack place text last with
  | zero => exact absurd enough (Nat.not_lt_zero _)
  | succ fuel ih =>
    rw [run]
    cases behind : (Pattern.gap text).2 with
    | nil =>
      refine ⟨[], [], stack, place, text, .nil, .nil, ?_⟩
      have fits := react_fits (endToken last) path
      cases reaction : react stack (endToken last) with
      | accepted d => exact .accepted behind reaction
      | refused left => exact .stuck (.ended behind reaction)
      | shifted next =>
        rw [reaction] at fits
        exact absurd rfl fits.2
      | derailed => exact absurd reaction (react_ne_derailed _ path)
    | cons x more =>
      cases found : Token.read? (expected (top stack)).contains (x :: more) with
      | none =>
        simp only [found]
        exact ⟨[], [], stack, place, text, .nil, .nil, .stuck (.missing behind found)⟩
      | some token =>
        obtain ⟨kind, piece, rest⟩ := token
        simp only [found]
        rw [← behind] at found
        have fits := react_fits ⟨kind, piece, place.advance (Pattern.gap text).1⟩ path
        cases reaction : react stack ⟨kind, piece, place.advance (Pattern.gap text).1⟩ with
        | shifted next =>
          rw [reaction] at fits
          have shorter := length_lt_of_read? found
          obtain ⟨tokens, states, left, here, later, reads, scanned, ends⟩ :=
            ih fits.1 (Nat.lt_of_lt_of_le shorter (Nat.le_of_lt_succ enough))
          refine ⟨_, _, left, here, later, .cons reaction reads, .cons found scanned, ?_⟩
          rw [getLast?_cons_or]
          exact ends
        | refused left => exact ⟨[], [], stack, place, text, .nil, .nil, .stuck (.refused found reaction)⟩
        | accepted d =>
          rw [reaction] at fits
          exact absurd fits (Token.matches_of_read? found).1.ne_end
        | derailed => exact absurd reaction (react_ne_derailed _ path)

/-- at the place where a run ends it has nothing more to read -/
theorem Ends.run_eq {fuel : Nat} {stack : List Frame} {place : Cursor} {text : Text} {last : Option Token}
    {outcome : Except SyntaxError Derivation} (h : Ends stack place text last outcome) :
    run (fuel + 1) stack place text last = outcome := by
  rw [run]
  cases h with
  | accepted ends accepts => simp only [ends, accepts]
  | stuck stuck =>
    cases stuck with
    | @refused kind piece rest left found refuses =>
      cases behind : (Pattern.gap text).2 with
      | nil =>
        obtain ⟨isToken, whole⟩ := Token.matches_of_read? found
        rw [behind] at whole
        exact absurd (List.append_eq_nil_iff.mp whole).1 isToken.ne_nil
      | cons x more =>
        rw [behind] at found
        simp only [found, refuses]
    | missing behind none => simp only [behind, none]
    | ended ends refuses => simp only [ends, refuses]

/-- a run goes on behind a token that is read -/
theorem run_of_shifted {fuel : Nat} {stack next : List Frame} {place : Cursor} {text piece rest : Text}
    {kind : Terminal} {last : Option Token}
    (found : Token.read? (expected (top stack)).contains (Pattern.gap text).2 = some (kind, piece, rest))
    (shifted : react stack ⟨kind, piece, place.advance (Pattern.gap text).1⟩ = .shifted next) :
    run (fuel + 1) stack place text last =
      run fuel next ((place.advance (Pattern.gap text).1).advance piece) rest
        (some ⟨kind, piece, place.advance (Pattern.gap text).1⟩) := by
  rw [run]
  cases behind : (Pattern.gap text).2 with
  | nil =>
    obtain ⟨isToken, whole⟩ := Token.matches_of_read? found
    rw [behind] at whole
    exact absurd (List.append_eq_nil_iff.mp whole).1 isToken.ne_nil
  | cons x more =>
    rw [behind] at found
    simp only [found, shifted]

/-- a run that can read tokens and then end does so -/
theorem run_of_ends {fuel : Nat} {stack left : List Frame} {place here : Cursor} {text behind : Text}
    {last : Option Token} {tokens : List Token} {states : List Nat} {outcome : Except SyntaxError Derivation}
    (reads : Reads stack tokens states left)
    (scanned : ScannedTo here behind (top stack) place text tokens states)
    (ends : Ends left here behind (tokens.getLast?.or last) outcome) (enough : text.length < fuel) :
    run fuel stack place text last = outcome := by
  induction reads generalizing fuel place text last with
  | nil =>
    obtain ⟨fuel, rfl⟩ := Nat.exists_eq_succ_of_ne_zero (Nat.ne_zero_of_lt enough)
    cases scanned
    exact ends.run_eq
  | @cons _ _ _ _ tokens _ shifted _ ih =>
    obtain ⟨fuel, rfl⟩ := Nat.exists_eq_succ_of_ne_zero (Nat.ne_zero_of_lt enough)
    cases scanned with
    | cons found further =>
      have shorter := length_lt_of_read? found
      rw [run_of_shifted found shifted]
      rw [getLast?_cons_or] at ends
      exact ih further ends (by omega)

end Parser

/-- **A text is parsed by reading tokens up to a place where the run ends.** -/
theorem parse_eq_iff (source : Text) (outcome : Except SyntaxError Derivation) :
    parse source = outcome ↔ ∃ tokens states left here behind, Parser.Reads [] tokens states left ∧
      Parser.ScannedTo here behind 0 .start source tokens states ∧
        Parser.Ends left here behind tokens.getLast? outcome := by
  constructor
  · rintro rfl
    have start : Parser.OnPath [] := .nil
    obtain ⟨tokens, states, left, here, behind, reads, scanned, ends⟩ :=
      Parser.run_ends start (Nat.lt_succ_self source.length)
    refine ⟨tokens, states, left, here, behind, reads, scanned, ?_⟩
    rw [Option.or_none] at ends
    exact ends
  · rintro ⟨tokens, states, left, here, behind, reads, scanned, ends⟩
    refine Parser.run_of_ends reads scanned ?_ (Nat.lt_succ_self _)
    rw [Option.or_none]
    exact ends

/-- the table fits the grammar: a text that is no declaration file is refused at a token or at a place -/
theorem parse_ne_derailed (source : Text) : parse source ≠ .error .derailed := by
  intro derailed
  obtain ⟨_, _, left, here, behind, _, _, ends⟩ := (parse_eq_iff source _).mp derailed
  generalize isDerailed : Except.error SyntaxError.derailed = outcome at ends
  cases ends with
  | accepted => cases isDerailed
  | stuck stuck =>
    cases stuck with
    | refused | ended => cases isDerailed
    | @missing x rest =>
      rw [Parser.missing] at isDerailed
      split at isDerailed <;> cases isDerailed

end Typings
