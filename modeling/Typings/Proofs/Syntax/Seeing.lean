import Typings.Proofs.Syntax.Placing
import Typings.Proofs.Token.LineEnds
/-!
# Parsing with other line ends

The parser looks at the classes of the tokens only.  So a stack with other tokens of the same classes does
the same, and a text with carriage returns in front of its line feeds is parsed as the text without them: to
the same derivation or the same error, as far as lines and columns tell.

* `Reaction.map`             what is done with a token, with each token changed;
* `Parser.react_map`         tokens of the same classes are reacted to in the same way;
* `Token.seen`, `SyntaxError.seen`   tokens and errors by their lines and columns only;
* `Parser.ScannedTo.crlf`, `Parser.Ends.crlf`   the row of tokens and the end with carriage returns;
* `Parser.parse_crlf`        a text with carriage returns.
-/

namespace Typings

/-! ## Stacks with other tokens -/

/-- a frame with each token changed -/
def Frame.map (f : Token → Token) (frame : Frame) : Frame := ⟨frame.state, frame.derivation.map f⟩

/-- what is done with a token, with each token changed -/
def Reaction.map (f : Token → Token) : Reaction → Reaction
  | shifted stack => shifted (stack.map (Frame.map f))
  | accepted d => accepted (d.map f)
  | refused stack => refused (stack.map (Frame.map f))
  | derailed => derailed

namespace Parser

section
variable {f : Token → Token}

theorem top_map (stack : List Frame) : top (stack.map (Frame.map f)) = top stack := by
  cases stack <;> rfl

variable (kinds : ∀ t, (f t).kind = t.kind)
include kinds

theorem reduce?_map (p : Production) (stack : List Frame) :
    reduce? p (stack.map (Frame.map f)) =
      (reduce? p stack).map fun r => (r.1.map f, r.2.map (Frame.map f)) := by
  have parts : (((stack.map (Frame.map f)).take p.rhs.length).map (·.derivation)).reverse =
      Derivation.mapAll f ((stack.take p.rhs.length).map (·.derivation)).reverse := by
    rw [Derivation.mapAll_eq_map, ← List.map_take, List.map_map, ← List.map_reverse, ← List.map_reverse,
      List.map_map]
    rfl
  unfold reduce?
  simp only [parts, Derivation.roots_mapAll kinds]
  split
  · rw [Option.map_some, ← List.map_drop]
    rfl
  · rfl

theorem reactWithin_map (fuel : Nat) (stack : List Frame) (token : Token) :
    reactWithin fuel (stack.map (Frame.map f)) (f token) = (reactWithin fuel stack token).map f := by
  induction fuel generalizing stack with
  | zero => rfl
  | succ fuel ih =>
    rw [reactWithin, reactWithin, top_map, kinds]
    cases Automaton.action (top stack) token.kind with
    | none => rfl
    | some action =>
      cases action with
      | shift state => rfl
      | reduce p =>
        simp only [reduce?_map kinds]
        cases reduce? p stack with
        | none => rfl
        | some r =>
          obtain ⟨d, below⟩ := r
          simp only [Option.map_some, top_map, List.isEmpty_map]
          by_cases isFile : p.lhs = .file
          · simp only [if_pos isFile]
            split <;> rfl
          · simp only [if_neg isFile]
            cases Automaton.goto (top below) p.lhs with
            | none => rfl
            | some state => exact ih (⟨state, d⟩ :: below)

/-- tokens of the same classes are reacted to in the same way -/
theorem react_map (stack : List Frame) (token : Token) :
    react (stack.map (Frame.map f)) (f token) = (react stack token).map f := by
  rw [react, react, List.length_map, reactWithin_map kinds]

end

end Parser

/-! ## Tokens and errors by lines and columns -/

/-- a token with the line and column of its place only -/
def Token.seen (t : Token) : Token := { t with start := t.start.seen }

theorem Token.kind_seen (t : Token) : t.seen.kind = t.kind := rfl

/-- an error with the lines and columns of its places only -/
def SyntaxError.seen : SyntaxError → SyntaxError
  | refused token expected => refused token.seen expected
  | misplaced token expected last => misplaced token.seen expected (last.map Token.seen)
  | unreadable place found expected last => unreadable place.seen found expected (last.map Token.seen)
  | derailed => derailed

namespace Parser

/-- two stacks that are the same as far as lines and columns tell -/
def SeenAlike (stack' stack : List Frame) : Prop :=
  stack'.map (Frame.map Token.seen) = stack.map (Frame.map Token.seen)

/-- two reactions that are the same as far as lines and columns tell -/
inductive ReactionAlike : Reaction → Reaction → Prop
  | shifted {stack' stack : List Frame} (alike : SeenAlike stack' stack) :
      ReactionAlike (.shifted stack') (.shifted stack)
  | accepted {d' d : Derivation} (alike : d'.map Token.seen = d.map Token.seen) :
      ReactionAlike (.accepted d') (.accepted d)
  | refused {stack' stack : List Frame} (alike : SeenAlike stack' stack) :
      ReactionAlike (.refused stack') (.refused stack)
  | derailed : ReactionAlike .derailed .derailed

theorem ReactionAlike.of_map {left right : Reaction} (h : left.map Token.seen = right.map Token.seen) :
    ReactionAlike left right := by
  cases left with
  | shifted =>
    cases right with
    | shifted => exact .shifted (Reaction.shifted.inj h)
    | accepted | refused | derailed => cases h
  | accepted =>
    cases right with
    | accepted => exact .accepted (Reaction.accepted.inj h)
    | shifted | refused | derailed => cases h
  | refused =>
    cases right with
    | refused => exact .refused (Reaction.refused.inj h)
    | shifted | accepted | derailed => cases h
  | derailed =>
    cases right with
    | derailed => exact .derailed
    | shifted | accepted | refused => cases h

/-- the end of a run with lines and columns only -/
def outcomeSeen (r : Except SyntaxError Derivation) : Except SyntaxError Derivation :=
  (r.mapError SyntaxError.seen).map (Derivation.map Token.seen)

theorem admits_seen (stack : List Frame) (t : Terminal) :
    admits (stack.map (Frame.map Token.seen)) t = admits stack t := by
  have reaction : react (stack.map (Frame.map Token.seen)) ⟨t, [], .start⟩ = _ :=
    react_map Token.kind_seen stack ⟨t, [], .start⟩
  rw [admits, admits, reaction]
  cases react stack ⟨t, [], .start⟩ <;> rfl

theorem admitted_seen (stack : List Frame) :
    admitted (stack.map (Frame.map Token.seen)) = admitted stack := by
  rw [admitted, admitted, top_map]
  exact List.filter_congr fun t _ => admits_seen stack t

namespace SeenAlike
variable {stack stack' : List Frame} (alike : SeenAlike stack' stack)
include alike

theorem top_eq : top stack' = top stack := by
  rw [← top_map (f := Token.seen), alike, top_map]

theorem admitted_eq : admitted stack' = admitted stack := by
  rw [← admitted_seen, alike, admitted_seen]

theorem react_alike {token token' : Token} (same : token'.seen = token.seen) :
    ReactionAlike (react stack' token') (react stack token) := by
  refine .of_map ?_
  rw [← react_map Token.kind_seen, ← react_map Token.kind_seen, alike, same]

theorem refusal_seen {token token' : Token} (same : token'.seen = token.seen) :
    (refusal stack' token').seen = (refusal stack token).seen := by
  rw [refusal, refusal, alike.admitted_eq, alike.top_eq]
  exact congrArg (SyntaxError.refused · _) same

/-- the error where no token may come is the same one -/
theorem missing_seen {place place' : Cursor} {x : CodePoint} {rest : Text} {last last' : Option Token}
    (places : place'.seen = place.seen) (lasts : last'.map Token.seen = last.map Token.seen)
    (line : x ≠ '\n') :
    (missing stack' place' x rest.crlf last').seen = (missing stack place x rest last).seen := by
  have any := Token.read?_crlf (fun _ => true) (x :: rest)
  rw [Text.crlf_cons line] at any
  change Token.readAny? (x :: rest.crlf) = (Token.readAny? (x :: rest)).map _ at any
  rw [missing, missing, any, alike.admitted_eq, alike.top_eq]
  cases Token.readAny? (x :: rest) with
  | none =>
    show SyntaxError.unreadable _ _ _ _ = SyntaxError.unreadable _ _ _ _
    rw [places, lasts]
  | some p =>
    show SyntaxError.misplaced _ _ _ = SyntaxError.misplaced _ _ _
    rw [lasts, Token.seen, Token.seen, places]

variable {token token' : Token} (same : token'.seen = token.seen)
include same

theorem shifts {next : List Frame} (h : react stack token = .shifted next) :
    ∃ next', react stack' token' = .shifted next' ∧ SeenAlike next' next := by
  have reaction := alike.react_alike same
  rw [h] at reaction
  generalize react stack' token' = reaction' at reaction ⊢
  cases reaction with
  | shifted alike => exact ⟨_, rfl, alike⟩

theorem accepts {d : Derivation} (h : react stack token = .accepted d) :
    ∃ d', react stack' token' = .accepted d' ∧ d'.map Token.seen = d.map Token.seen := by
  have reaction := alike.react_alike same
  rw [h] at reaction
  generalize react stack' token' = reaction' at reaction ⊢
  cases reaction with
  | accepted alike => exact ⟨_, rfl, alike⟩

theorem refuses {left : List Frame} (h : react stack token = .refused left) :
    ∃ left', react stack' token' = .refused left' ∧ SeenAlike left' left := by
  have reaction := alike.react_alike same
  rw [h] at reaction
  generalize react stack' token' = reaction' at reaction ⊢
  cases reaction with
  | refused alike => exact ⟨_, rfl, alike⟩

end SeenAlike

theorem endToken_seen {last last' : Option Token} (lasts : last'.map Token.seen = last.map Token.seen) :
    (endToken last').seen = (endToken last).seen := by
  have starts : ∀ last : Option Token, (endToken last).seen =
      ⟨.END, [], ((last.map Token.seen).map (·.start)).getD Cursor.start.seen⟩ := by
    intro last
    cases last <;> rfl
  rw [starts last', starts last, lasts]

/-- stacks that are the same read tokens that are the same -/
theorem Reads.alike {stack stack' left : List Frame} {tokens tokens' : List Token} {states : List Nat}
    (h : Reads stack tokens states left) (alike : SeenAlike stack' stack)
    (same : tokens'.map Token.seen = tokens.map Token.seen) :
    ∃ left', Reads stack' tokens' states left' ∧ SeenAlike left' left := by
  induction h generalizing stack' tokens' with
  | nil =>
    obtain rfl := List.map_eq_nil_iff.mp same
    exact ⟨stack', .nil, alike⟩
  | cons shifted _ ih =>
    obtain ⟨token', tokens', rfl, head, tail⟩ := List.map_eq_cons_iff.mp same
    obtain ⟨next', shifted', nextAlike⟩ := alike.shifts head shifted
    obtain ⟨left', reads, leftAlike⟩ := ih nextAlike tail
    refine ⟨left', ?_, leftAlike⟩
    rw [← nextAlike.top_eq]
    exact .cons shifted' reads

/-- the code point behind a gap is no line feed -/
theorem ne_lineFeed_of_gap {text rest : Text} {x : CodePoint} (behind : (Pattern.gap text).2 = x :: rest) :
    x ≠ '\n' := by
  have ends := Pattern.ignored_gap text
  rw [behind] at ends
  rintro rfl
  exact Pattern.not_begins_of_ignored ends (Text.begins_cons.mpr rfl)

/-- a token that is read behind a gap is read with carriage returns behind it -/
theorem read?_gap_crlf {admitted : Terminal → Bool} {text piece rest : Text} {kind : Terminal}
    (found : Token.read? admitted (Pattern.gap text).2 = some (kind, piece, rest)) :
    Token.read? admitted (Pattern.gap text.crlf).2 = some (kind, piece, rest.crlf) := by
  have token := Token.read?_crlf admitted (Pattern.gap text).2
  rw [found] at token
  rw [Pattern.gap_crlf]
  exact token

/-- a text that is scanned up to a place is scanned with carriage returns to the same lines and columns -/
theorem ScannedTo.crlf {here place place' : Cursor} {behind text : Text} {state : Nat} {tokens : List Token}
    {states : List Nat} (h : ScannedTo here behind state place text tokens states)
    (places : place'.seen = place.seen) :
    ∃ here' tokens', ScannedTo here' behind.crlf state place' text.crlf tokens' states ∧
      here'.seen = here.seen ∧ tokens'.map Token.seen = tokens.map Token.seen := by
  induction h generalizing place' with
  | nil => exact ⟨place', [], .nil, places, rfl⟩
  | @cons state next place text piece rest kind tokens states found _ ih =>
    have there := Cursor.seen_advance_crlf places (Pattern.gap text).1
    have gap : (Pattern.gap text.crlf).1 = (Pattern.gap text).1.crlf := congrArg Prod.fst (Pattern.gap_crlf text)
    rw [← gap] at there
    obtain ⟨here', tokens', scanned, hereSeen, same⟩ := ih (Cursor.seen_advance there piece)
    refine ⟨here', _, .cons (read?_gap_crlf found) scanned, hereSeen, ?_⟩
    rw [List.map_cons, List.map_cons, same, Token.seen, Token.seen, there]

section
variable {stack stack' : List Frame} {place place' : Cursor} {text : Text} {last last' : Option Token}

theorem gap_crlf_eq_nil (ends : (Pattern.gap text).2 = []) : (Pattern.gap text.crlf).2 = [] := by
  rw [Pattern.gap_crlf, ends]
  rfl

/-- a parser that is stuck is stuck with carriage returns at the same line and column -/
theorem Stuck.crlf {e : SyntaxError} (h : Stuck stack place text last e) (alike : SeenAlike stack' stack)
    (places : place'.seen = place.seen) (lasts : last'.map Token.seen = last.map Token.seen) :
    ∃ e', Stuck stack' place' text.crlf last' e' ∧ e'.seen = e.seen := by
  have there : (place'.advance (Pattern.gap text.crlf).1).seen = (place.advance (Pattern.gap text).1).seen := by
    rw [Pattern.gap_crlf]
    exact Cursor.seen_advance_crlf places _
  cases h with
  | @refused kind piece rest left found refuses =>
    have same : Token.seen ⟨kind, piece, place'.advance (Pattern.gap text.crlf).1⟩ =
        Token.seen ⟨kind, piece, place.advance (Pattern.gap text).1⟩ := congrArg (Token.mk kind piece) there
    obtain ⟨left', refuses', leftAlike⟩ := alike.refuses same refuses
    have found' := read?_gap_crlf found
    rw [← alike.top_eq] at found'
    exact ⟨_, .refused found' refuses', leftAlike.refusal_seen same⟩
  | @missing x rest behind none =>
    have line := ne_lineFeed_of_gap behind
    have none' := Token.read?_crlf (Automaton.expected (top stack)).contains (x :: rest)
    rw [Text.crlf_cons line, none, ← alike.top_eq] at none'
    have behind' : (Pattern.gap text.crlf).2 = x :: rest.crlf := by
      rw [Pattern.gap_crlf, behind]
      exact Text.crlf_cons line rest
    exact ⟨_, .missing behind' none', alike.missing_seen there lasts line⟩
  | ended ends refuses =>
    have same := endToken_seen lasts
    obtain ⟨left', refuses', leftAlike⟩ := alike.refuses same refuses
    exact ⟨_, .ended (gap_crlf_eq_nil ends) refuses', leftAlike.refusal_seen same⟩

/-- a run ends with carriage returns as without, as far as lines and columns tell -/
theorem Ends.crlf {outcome : Except SyntaxError Derivation} (h : Ends stack place text last outcome)
    (alike : SeenAlike stack' stack) (places : place'.seen = place.seen)
    (lasts : last'.map Token.seen = last.map Token.seen) :
    ∃ outcome', Ends stack' place' text.crlf last' outcome' ∧ outcomeSeen outcome' = outcomeSeen outcome := by
  cases h with
  | accepted ends accepts =>
    obtain ⟨d', accepts', same⟩ := alike.accepts (endToken_seen lasts) accepts
    exact ⟨_, .accepted (gap_crlf_eq_nil ends) accepts', congrArg Except.ok same⟩
  | stuck stuck =>
    obtain ⟨e', stuck', same⟩ := stuck.crlf alike places lasts
    exact ⟨_, .stuck stuck', congrArg Except.error same⟩

end

/-- **A text is parsed with carriage returns in front of its line feeds as without them, as far as lines and
columns tell.** -/
theorem parse_crlf (s : Text) : outcomeSeen (parse s.crlf) = outcomeSeen (parse s) := by
  obtain ⟨tokens, states, left, here, behind, reads, scanned, ends⟩ := (parse_eq_iff s _).mp rfl
  obtain ⟨here', tokens', scanned', hereSeen, same⟩ := scanned.crlf rfl
  have start : SeenAlike [] [] := rfl
  obtain ⟨left', reads', alike⟩ := reads.alike start same
  have lasts : tokens'.getLast?.map Token.seen = tokens.getLast?.map Token.seen := by
    rw [← List.getLast?_map, ← List.getLast?_map, same]
  obtain ⟨outcome', ends', seen⟩ := ends.crlf alike hereSeen lasts
  rw [← seen]
  exact congrArg outcomeSeen
    ((parse_eq_iff s.crlf outcome').mpr ⟨tokens', states, left', here', _, reads', scanned', ends'⟩)

end Parser

end Typings
