import Typings.Proofs.Report.Concatenation
import Typings.Proofs.Syntax.Refusal
/-!
# Texts that go on

An error at a token stays where it is, whatever the text goes on with.  An error at the end tells that
the text may go on: from the next line on, it can be made a declaration file.

* `Parser.react_end_of_starter`      a single token is no file;
* `SourceFile.read_unexpected`       the main result.
-/

namespace Typings

namespace Parser
open Automaton

/-- no production is written by a single starter -/
theorem rhs_ne_starter : ∀ p ∈ productions, ∀ t ∈ Terminal.starters, p.rhs ≠ [.terminal t] := by
  decide +kernel

/-- behind a single starter, the end of the text is refused -/
theorem react_end_of_starter {state : Nat} {starter token : Token}
    (step : next? 0 (.terminal starter.kind) = some state) (isStarter : starter.kind ∈ Terminal.starters)
    (isEnd : token.kind = .END) :
    ∃ stack, react [⟨state, .leaf starter⟩] token = .refused stack := by
  have path : OnPath [⟨state, .leaf starter⟩] := .cons .nil step
  cases act : action (top [⟨state, .leaf starter⟩]) token.kind with
  | none => exact ⟨[⟨state, .leaf starter⟩], react_of_none act⟩
  | some act' =>
    cases act' with
    | shift next =>
      have read := action_shift act
      rw [isEnd, next?_end] at read
      cases read
    | reduce p =>
      obtain ⟨_, _, _, same, deep, mem, _, item⟩ := path.reduce act
      match len : p.rhs.length with
      | 0 =>
        have isFile := eq_file_of_rhs_nil p mem (List.length_eq_zero_iff.mp len)
        have none := (path.drop p.rhs.length).eq_nil_of_file item isFile
        rw [len] at none
        cases none
      | 1 =>
        rw [len] at same
        exact absurd same.symm (rhs_ne_starter p mem _ isStarter)
      | n + 2 =>
        rw [len] at deep
        exact absurd deep (by simp)

/-- a text of a single starter is refused at its end, which has the place of the starter -/
theorem parse_of_starter {s piece rest : Text} {kind : Terminal} {state : Nat}
    (found : Token.read? (expected 0).contains (Pattern.gap s).2 = some (kind, piece, rest))
    (ends : (Pattern.gap rest).2 = []) (step : next? 0 (.terminal kind) = some state)
    (isStarter : kind ∈ Terminal.starters) :
    ∃ e token, parse s = .error e ∧ e.token? = some token ∧ token.kind = .END ∧
      token.start = Cursor.start.advance (Pattern.gap s).1 := by
  let starter : Token := ⟨kind, piece, Cursor.start.advance (Pattern.gap s).1⟩
  have shifted : react [] starter = .shifted [⟨state, .leaf starter⟩] := react_of_next step
  obtain ⟨left, refuses⟩ : ∃ left, react [⟨state, .leaf starter⟩] (endToken (some starter)) = .refused left :=
    react_end_of_starter step isStarter rfl
  have failed := (parse_eq_iff s _).mpr ⟨[starter], [state], [⟨state, .leaf starter⟩], _, rest,
    .cons shifted .nil, .cons found .nil, .stuck (.ended ends refuses)⟩
  exact ⟨_, _, failed, rfl, rfl, rfl⟩

/-- a text that does not begin with a starter is refused at its first token -/
theorem parse_of_no_starter {s more : Text} {x : CodePoint} {token : Terminal × Text × Text}
    (first : (Pattern.gap s).2 = x :: more) (any : Token.readAny? (x :: more) = some token)
    (noStarter : ∀ kind piece rest, kind ∈ Terminal.starters → kind.Matches piece rest →
      piece ++ rest ≠ x :: more) :
    ∃ e token, parse s = .error e ∧ e.token? = some token ∧ token.kind ≠ .END := by
  obtain ⟨tokens, states, left, here, behind, reads, scanned, ends⟩ := (parse_eq_iff s _).mp rfl
  cases reads with
  | nil =>
    cases scanned
    generalize parse s = outcome at ends ⊢
    cases ends with
    | accepted ends => cases first.symm.trans ends
    | stuck stuck =>
      cases stuck with
      | refused found => exact ⟨_, _, rfl, rfl, (Token.matches_of_read? found).1.ne_end⟩
      | missing behind none =>
        cases first.symm.trans behind
        obtain ⟨kind, piece, rest⟩ := token
        rw [missing, any]
        exact ⟨_, _, rfl, rfl, (Token.matches_of_read? any).1.ne_end⟩
      | ended ends => cases first.symm.trans ends
  | @cons _ next _ token _ _ shifted _ =>
    -- a file that begins with the token would begin with a starter
    have one : Reads [] [token] [top next] next := .cons shifted .nil
    obtain ⟨more, _, d, after, leads, tokensD⟩ := exists_completion (one.path .nil) (one.stacked fun _ => .nil)
    rw [(one.keeps fun f hf => absurd hf List.not_mem_nil).2] at tokensD
    cases scanned with
    | cons found _ =>
      obtain ⟨isToken, whole⟩ := Token.matches_of_read? found
      exact absurd (whole.trans first) (noStarter _ _ _ (leads.starter tokensD) isToken)

end Parser

namespace SourceFile

theorem parse_of_read_error {s : Text} {e : SyntaxError} (h : read s = .error (.syntaxError e)) :
    parse s = .error e := by
  cases parsed : parse s with
  | error e' =>
    rw [read_of_parse_error parsed] at h
    cases h
    rfl
  | ok d =>
    rw [read_of_parse_ok parsed] at h
    generalize SourceFile.ofTree (.ofDerivation d) = built at h
    cases built <;> cases h

/-- a text that is parsed gives declarations or the error of a string literal -/
theorem read_cases_of_parse {s : Text} {d : Derivation} (h : parse s = .ok d) :
    (∃ f, read s = .ok f) ∨ ∃ b, read s = .error (.buildError b) := by
  rw [read_of_parse_ok h]
  cases SourceFile.ofTree (.ofDerivation d) with
  | error b => exact .inr ⟨b, rfl⟩
  | ok f => exact .inl ⟨f, rfl⟩

/-- **If a text is refused at a token, it is refused there with the same error whatever comes behind
it and a space.  If it is refused at its end, there is something to go on with in the next line so
that the text is accepted, but for string literals that cannot be decoded.** -/
theorem read_unexpected {s : Text} {e : SyntaxError} {token : Token}
    (h : read s = .error (.syntaxError e)) (isAt : e.token? = some token) :
    (token.kind ≠ .END → ∀ t, read (Text.onward (.scalar ' ') s t) = .error (.syntaxError e)) ∧
    (token.kind = .END → ∃ t, (∃ f, read (Text.nextLine s t) = .ok f) ∨
      ∃ b, read (Text.nextLine s t) = .error (.buildError b)) := by
  have failed := parse_of_read_error h
  constructor
  · intro ne_end t
    exact read_of_parse_error (parse_onward (by decide) failed isAt ne_end t)
  · intro isEnd
    obtain ⟨t, d, parsed⟩ := exists_completion_of_end failed isAt isEnd
    exact ⟨t, read_cases_of_parse parsed⟩

/-- a semicolon is no starter, so it is refused -/
theorem parse_semicolon : ∃ e token, parse ";" = .error e ∧ e.token? = some token ∧ token.kind ≠ .END := by
  have any : Token.readAny? (Text.ofString ";" ++ []) = some (Terminal.SEMICOLON, Text.ofString ";", []) :=
    Token.read?_of_matches (.spelled rfl) rfl (fun e => nomatch e) Text.not_begins_nil
  refine Parser.parse_of_no_starter (by decide) any fun kind piece rest isStarter isToken whole => ?_
  have first : Text.ofString ";" = piece ++ rest := whole.symm
  cases isToken with
  | spelled spelling =>
    simp only [Terminal.starters, List.mem_cons, List.not_mem_nil, or_false] at isStarter
    rcases isStarter with rfl | rfl | rfl | rfl <;> cases spelling <;>
      exact absurd (List.cons.inj first).1 (by decide)
  | _ => exact absurd isStarter (by decide)

/-- a keyword with only ignored text behind it is refused at its end -/
theorem parse_interface {rest : Text} (ends : (Pattern.gap rest).2 = [])
    (apart : ¬ rest.Begins Terminal.INTERFACE.goesOn) :
    ∃ e token, parse (Text.ofString "interface" ++ rest) = .error e ∧ e.token? = some token ∧
      token.kind = .END ∧ token.start = .start := by
  obtain ⟨valid, separated⟩ := interfaceA_valid
  obtain ⟨states, leads⟩ := Derivation.leads_of_parted valid rfl (separated.parted .END)
  obtain ⟨state, step⟩ : ∃ state, Automaton.next? 0 (.terminal .INTERFACE) = some state := by
    cases leads with
    | node _ _ _ inner => exact inner.first (fun e => nomatch e)
  have expects : Parser.Expects 0 .INTERFACE := by
    rw [Parser.expects_iff, Automaton.action_of_next step]
    exact Option.some_ne_none _
  have keyword : Terminal.INTERFACE.Matches "interface" [] := .spelled rfl
  have plain : Token.Plain 0 ⟨.INTERFACE, "interface", .start⟩ := fun e => nomatch e
  obtain ⟨noGap, found⟩ := Parser.read_lexeme (.nil _) keyword apart expects plain
  rw [List.nil_append] at noGap
  obtain ⟨e, token, failed, isAt, isEnd, start⟩ :=
    Parser.parse_of_starter (by rw [noGap]; exact found) ends step (by decide)
  rw [noGap] at start
  exact ⟨e, token, failed, isAt, isEnd, start⟩

theorem read_unexpected_semicolon_interface :
    (∃ e token, read ";" = .error (.syntaxError e) ∧ e.token? = some token ∧
      ∀ t, read (Text.onward (.scalar ' ') ";" t) = .error (.syntaxError e)) ∧
    (∃ e token, read "interface" = .error (.syntaxError e) ∧ e.token? = some token ∧
      ∃ t, (∃ f, read (Text.nextLine "interface" t) = .ok f) ∨
        ∃ b, read (Text.nextLine "interface" t) = .error (.buildError b)) := by
  obtain ⟨e, token, failed, isAt, ne_end⟩ := parse_semicolon
  obtain ⟨e', token', failed', isAt', isEnd, _⟩ := @parse_interface [] rfl Text.not_begins_nil
  rw [List.append_nil] at failed'
  exact ⟨⟨e, token, read_of_parse_error failed, isAt,
      (read_unexpected (read_of_parse_error failed) isAt).1 ne_end⟩,
    ⟨e', token', read_of_parse_error failed', isAt',
      (read_unexpected (read_of_parse_error failed') isAt').2 isEnd⟩⟩

end SourceFile

end Typings
