import Typings.Proofs.Syntax.Completion
import Typings.Proofs.Syntax.NextLine
/-!
# What a refused token tells

A token that is refused is refused whatever comes behind it, since a blank makes no token longer and
the parser looks at one token at a time.  If the end of the text is refused, the text in front of it
can be completed.

* `SyntaxError.token?`            the token that an error is at;
* `Parser.Stuck.onward`           a parser that is stuck at a token is so when the text goes on;
* `parse_onward`                  the same for a whole text;
* `Parser.Stuck.at_end`           an error at the end of the text comes behind all tokens;
* `exists_completion_of_end`      such a text can be completed in the next line.
-/

namespace Typings

/-- the token that an error is at -/
def SyntaxError.token? : SyntaxError → Option Token
  | refused token _ | misplaced token _ _ => some token
  | unreadable .. | derailed => none

namespace Parser
open Automaton Typings.Derivation

/-! ## Texts that go on -/

/-- in front of a token, the gap is that of the text that goes on -/
theorem gap_onward_of_matches {x : CodePoint} (blank : x.isBlank = true) {text piece rest : Text}
    {kind : Terminal} (isToken : kind.Matches piece rest) (whole : piece ++ rest = (Pattern.gap text).2)
    (t : Text) : Pattern.gap (Text.onward x text t) = Pattern.onward x t (Pattern.gap text) := by
  refine Pattern.gap_onward t ?_ ?_
  · rw [← whole]
    exact List.append_ne_nil_of_left_ne_nil isToken.ne_nil _
  · rw [← whole, Text.append_onward]
    exact (isToken.onward blank t).ignored

/-- the error where no token may come says the same when the text goes on, if there is one -/
theorem missing_onward {x : CodePoint} (blank : x.isBlank = true) {stack : List Frame} {place : Cursor}
    {y : CodePoint} {rest : Text} {last : Option Token} {kind : Terminal} {piece behind : Text}
    (found : Token.readAny? (y :: rest) = some (kind, piece, behind)) (t : Text) :
    missing stack place y (Text.onward x rest t) last = missing stack place y rest last := by
  have there : Token.readAny? (y :: Text.onward x rest t) = some (kind, piece, Text.onward x behind t) :=
    Token.read?_onward blank t found
  simp only [missing, found, there]

/-- a text that is scanned up to a place is scanned up to there when it goes on -/
theorem ScannedTo.onward {x : CodePoint} (blank : x.isBlank = true) {here place : Cursor} {behind text : Text}
    {state : Nat} {tokens : List Token} {states : List Nat}
    (h : ScannedTo here behind state place text tokens states) (t : Text) :
    ScannedTo here (Text.onward x behind t) state place (Text.onward x text t) tokens states := by
  induction h with
  | nil => exact .nil
  | @cons state next place text piece rest kind tokens states found _ ih =>
    obtain ⟨isToken, whole⟩ := Token.matches_of_read? found
    have gap := gap_onward_of_matches blank isToken whole t
    have still := Token.read?_onward blank t found
    have all : ScannedTo here _ state place (Text.onward x text t)
        (⟨kind, piece, place.advance (Pattern.gap (Text.onward x text t)).1⟩ :: tokens) (next :: states) :=
      .cons (by rw [gap]; exact still) (by rw [gap]; exact ih)
    rwa [gap] at all

/-- **A parser that is stuck at a token is stuck there with the same error when the text goes on behind a
blank.** -/
theorem Stuck.onward {x : CodePoint} (blank : x.isBlank = true) {stack : List Frame} {place : Cursor}
    {text : Text} {last : Option Token} {e : SyntaxError} {token : Token} (h : Stuck stack place text last e)
    (isAt : e.token? = some token) (ne_end : token.kind ≠ .END) (t : Text) :
    Stuck stack place (Text.onward x text t) last e := by
  cases h with
  | @refused kind piece rest left found refuses =>
    obtain ⟨isToken, whole⟩ := Token.matches_of_read? found
    have gap := gap_onward_of_matches blank isToken whole t
    have there : place.advance (Pattern.gap (Text.onward x text t)).1 = place.advance (Pattern.gap text).1 := by
      rw [gap]
      rfl
    have still := Token.read?_onward blank t found
    rw [← there] at refuses ⊢
    exact .refused (by rw [gap]; exact still) refuses
  | @missing y rest behind none =>
    cases any : Token.readAny? (y :: rest) with
    | none =>
      simp only [Parser.missing, any] at isAt
      cases isAt
    | some p =>
      obtain ⟨kind, piece, later⟩ := p
      obtain ⟨isToken, whole⟩ := Token.matches_of_read? any
      have gap := gap_onward_of_matches blank isToken (whole.trans behind.symm) t
      have still := Token.read?_onward_eq_none blank t none (by rw [any]; exact Option.some_ne_none _)
      rw [Text.onward_cons] at still
      have goesOn : (Pattern.gap (Text.onward x text t)).2 = y :: Text.onward x rest t := by
        rw [gap, ← Text.onward_cons, ← behind]
        rfl
      have stuck : Stuck stack place (Text.onward x text t) last _ := .missing goesOn still
      rw [missing_onward blank any, gap] at stuck
      exact stuck
  | ended =>
    cases isAt
    exact absurd rfl ne_end

/-! ## Texts that end too soon -/

/-- an error at the end of the text comes behind all tokens -/
theorem Stuck.at_end {stack : List Frame} {place : Cursor} {text : Text} {last : Option Token} {e : SyntaxError}
    {token : Token} (h : Stuck stack place text last e) (isAt : e.token? = some token) (isEnd : token.kind = .END) :
    (Pattern.gap text).2 = [] := by
  cases h with
  | refused found =>
    cases isAt
    exact absurd isEnd (Token.matches_of_read? found).1.ne_end
  | @missing y rest =>
    -- what is found where no token may come is not the end of the text
    cases any : Token.readAny? (y :: rest) with
    | none =>
      simp only [Parser.missing, any] at isAt
      cases isAt
    | some p =>
      simp only [Parser.missing, any] at isAt
      cases isAt
      exact absurd isEnd (Token.matches_of_read? any).1.ne_end
  | ended ends => exact ends

end Parser

/-! ## Whole texts -/

/-- an error at a token is the error of every text that goes on behind a blank -/
theorem parse_onward {x : CodePoint} (blank : x.isBlank = true) {s : Text} {e : SyntaxError} {token : Token}
    (h : parse s = .error e) (isAt : e.token? = some token) (ne_end : token.kind ≠ .END) (t : Text) :
    parse (Text.onward x s t) = .error e := by
  obtain ⟨tokens, states, left, here, behind, reads, scanned, ends⟩ := (parse_eq_iff s _).mp h
  cases ends with
  | stuck stuck =>
    exact (parse_eq_iff _ _).mpr ⟨tokens, states, left, here, _, reads, scanned.onward blank t,
      .stuck (stuck.onward blank isAt ne_end t)⟩

/-- samples that are laid out are no keywords where a name may come -/
theorem plain_of_unplaced {ts us : List Token} (same : us.map Token.unplaced = ts.map Token.unplaced)
    (samples : ∀ t ∈ ts, t.IsSample) (state : Nat) : ∀ u ∈ us, u.Plain state := by
  refine Token.forall_of_unplaced (P := fun kind text => Token.Plain state ⟨kind, text, .start⟩) same
    fun t ht isName v _ => ?_
  have isName : t.kind = .NAME := isName
  show v.isWord t.text = false
  rw [(samples t ht).1, isName]
  exact Token.sample_plain v v.mem_all

/-- a text that ends too soon can be completed in the next line -/
theorem exists_completion_of_end {s : Text} {e : SyntaxError} {token : Token} (h : parse s = .error e)
    (isAt : e.token? = some token) (isEnd : token.kind = .END) :
    ∃ t d, parse (Text.nextLine s t) = .ok d := by
  obtain ⟨tokens, states, stack, here, behind, reads, scanned, ends⟩ := (parse_eq_iff s _).mp h
  have whole : Parser.tokensOf stack = tokens := (reads.keeps fun f hf => absurd hf List.not_mem_nil).2
  have stacked : ∀ ahead, Parser.Stacked stack ahead states := reads.stacked fun _ => .nil
  have scanned : Parser.Scanned 0 .start s tokens states := by
    cases ends with
    | stuck stuck => exact scanned.scanned (stuck.at_end isAt isEnd)
  obtain ⟨more, samples, d, after, leads, tokensD⟩ := Parser.exists_completion (reads.path .nil) stacked
  rw [whole, List.append_nil] at tokensD
  -- the tokens that are missing, in the line behind the text
  obtain ⟨us, same, laid⟩ := laid_spaced fun t ht => (samples t ht).matches
  let down := Token.down (s.length + 1) (s.lineFeeds + 1)
  have placed : (tokens ++ us.map down).map Token.unplaced = d.tokens.map Token.unplaced := by
    rw [tokensD, List.map_append, List.map_append, ← same, List.map_map]
    rfl
  obtain ⟨d', tokens', alike⟩ := d.exists_of_tokens placed
  have leads' := leads.of_unplaced alike
  refine ⟨Token.spaced more, d', Parser.parse_of_leads leads' ?_⟩
  rw [tokens']
  have expects := leads'.expects
  rw [tokens'] at expects
  refine scanned.nextLine ?_
  rw [Cursor.advance_line]
  refine Parser.Scanned.down (Parser.scanned_of_laid laid ?_) _ _
  have behind := (scanned.plain.behind expects).of_map
  exact behind.imp fun state u hu expects => ⟨expects, plain_of_unplaced same samples state u hu⟩

end Typings
