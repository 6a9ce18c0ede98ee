import Typings.Proofs.Report.Concatenation
import Typings.Proofs.Token.Breaking
import Typings.Proofs.Token.Filling
/-!
# White space and comments

A text that is read may have other white space and comments around its tokens.  A token breaks off at
ignored text, so the same tokens are read in the same states, and nothing but their places is different.

* `SourceFile.unplaced`      the declarations without their places;
* `RefilledBehind`, `Refilled`    a text with other ignored text around its tokens;
* `Parser.Scanned.refilledAround`   the tokens are those of the first text;
* `Text.Refilled.refl`       the ignored text may stay as it is;
* `SourceFile.read_refilled` the main result.
-/

namespace Typings

/-- the declarations with every place the first one -/
def SourceFile.unplaced (f : SourceFile) : SourceFile := f.moved fun _ => Cursor.start.loc

/-! ## Other ignored text -/

/-- behind a token, the tokens of a text with other ignored text in front of each and at the end.  Where
there was ignored text in front of a token, there still is some. -/
inductive RefilledBehind : List Token → Text → Text → Prop
  | last {gap gap' : Text} (isGap : Gap gap []) (filler : FillerAtEnd gap') : RefilledBehind [] gap gap'
  | next {token : Token} {tokens : List Token} {gap gap' rest rest' : Text}
      (isGap : Gap gap (token.text ++ rest)) (filler : Filler gap') (apart : gap ≠ [] → gap' ≠ [])
      (further : RefilledBehind tokens rest rest') :
      RefilledBehind (token :: tokens) (gap ++ (token.text ++ rest)) (gap' ++ (token.text ++ rest'))

/-- the tokens of a whole text with other ignored text around them -/
inductive RefilledAround : List Token → Text → Text → Prop
  | none {gap gap' : Text} (isGap : Gap gap []) (filler : FillerAtEnd gap') : RefilledAround [] gap gap'
  | first {token : Token} {tokens : List Token} {gap gap' rest rest' : Text}
      (isGap : Gap gap (token.text ++ rest)) (filler : Filler gap')
      (further : RefilledBehind tokens rest rest') :
      RefilledAround (token :: tokens) (gap ++ (token.text ++ rest)) (gap' ++ (token.text ++ rest'))

/-- a text that is parsed with other white space and comments around its tokens -/
def Text.Refilled (s s' : Text) : Prop := ∃ d, parse s = .ok d ∧ RefilledAround d.tokens s s'

theorem Filler.head_not_solid {filler rest : Text} (h : Filler filler)
    (behind : filler = [] → ∀ x ∈ rest.head?, x.isSolid = false) :
    ∀ x ∈ (filler ++ rest).head?, x.isSolid = false := by
  cases h with
  | nil => exact behind rfl
  | blank isBlank =>
    rintro x ⟨⟩
    rw [CodePoint.isSolid, isBlank]
    rfl
  | lineComment =>
    rintro x ⟨⟩
    rfl
  | blockComment =>
    rintro x ⟨⟩
    rfl

theorem FillerAtEnd.head_not_solid {filler : Text} (h : FillerAtEnd filler) :
    ∀ x ∈ filler.head?, x.isSolid = false := by
  cases h with
  | whole isFiller =>
    have first : ∀ x ∈ (filler ++ []).head?, x.isSolid = false :=
      isFiller.head_not_solid fun _ _ h => nomatch h
    rwa [List.append_nil] at first
  | lineComment isFiller =>
    refine isFiller.head_not_solid fun _ => ?_
    rintro x ⟨⟩
    rfl

/-- what stands behind a token breaks off as before, or sooner -/
theorem RefilledBehind.breaks {tokens : List Token} {rest rest' : Text}
    (h : RefilledBehind tokens rest rest') : Text.Breaks rest' rest := by
  induction h with
  | last isGap filler => exact .of_not_solid filler.head_not_solid
  | @next token tokens gap gap' rest rest' _ filler apart _ ih =>
    by_cases none : gap' = []
    · obtain rfl : gap = [] := by
        by_contra some
        exact apart some none
      subst none
      exact ih.append token.text
    · exact .of_not_solid (filler.head_not_solid fun e => absurd e none)

namespace Parser
variable {state next : Nat} {place place' : Cursor} {gap gap' rest rest' : Text} {token : Token}
  {tokens : List Token} {states : List Nat}

/-- the first token of a text that scans, behind other ignored text and in front of a text that breaks
off -/
theorem Scanned.refill_first
    (h : Scanned state place (gap ++ (token.text ++ rest)) (token :: tokens) (next :: states))
    (isGap : Gap gap (token.text ++ rest)) (filler : Filler gap') (breaks : Text.Breaks rest' rest)
    (further : ∀ {place place' : Cursor}, Scanned next place rest tokens states → ∃ tokens' : List Token,
      tokens'.map Token.unplaced = tokens.map Token.unplaced ∧ Scanned next place' rest' tokens' states) :
    ∃ tokens' : List Token, tokens'.map Token.unplaced = (token :: tokens).map Token.unplaced ∧
      Scanned state place' (gap' ++ (token.text ++ rest')) tokens' (next :: states) := by
  generalize whole : gap ++ (token.text ++ rest) = text at h
  cases h with
  | @cons _ _ _ _ piece behind kind _ _ found scanned =>
    obtain ⟨isToken, split⟩ := Token.matches_of_read? found
    obtain ⟨x, more, e, blank, slash⟩ := isToken.first
    have ends : ∀ {t : Text}, Pattern.ignored (piece ++ t) = none := by
      intro t
      rw [e]
      exact Pattern.ignored_eq_none blank slash
    have taken : Pattern.gap text = (gap, piece ++ rest) := by
      rw [← whole]
      exact Pattern.gap_of_isGap isGap ends
    rw [taken] at found split
    obtain rfl : behind = rest := List.append_cancel_left split
    obtain ⟨tokens', same, scanned'⟩ := further scanned
    have isGap' := filler.isGap (Pattern.not_begins_of_ignored (ends (t := rest')))
    have taken' := Pattern.gap_of_isGap isGap' ends
    refine ⟨⟨kind, piece, place'.advance gap'⟩ :: tokens', ?_, ?_⟩
    · rw [List.map_cons, List.map_cons, same]
      rfl
    · have here : Scanned state place' (gap' ++ (piece ++ rest')) _ (next :: states) :=
        .cons (by rw [taken']; exact Token.read?_of_breaks found breaks) (by rw [taken']; exact scanned')
      rwa [taken'] at here

/-- each token leads into a state -/
theorem Scanned.states_of_cons {text : Text} (h : Scanned state place text (token :: tokens) states) :
    ∃ next more, states = next :: more := by
  cases h
  exact ⟨_, _, rfl⟩

/-- the gap at the end of a text that scans may be another one -/
theorem scanned_filler (filler : FillerAtEnd gap') : Scanned state place gap' [] [] := by
  have taken := Pattern.gap_of_isGap filler.isGap rfl
  rw [List.append_nil] at taken
  exact .nil (by rw [taken])

/-- behind a token, the same tokens are read -/
theorem Scanned.refilledBehind (h : Scanned state place rest tokens states)
    (refilled : RefilledBehind tokens rest rest') : ∃ tokens' : List Token,
      tokens'.map Token.unplaced = tokens.map Token.unplaced ∧ Scanned state place' rest' tokens' states := by
  induction refilled generalizing state states place place' with
  | last _ filler =>
    cases h
    exact ⟨[], rfl, scanned_filler filler⟩
  | next isGap filler _ further ih =>
    obtain ⟨next, states, rfl⟩ := h.states_of_cons
    exact h.refill_first isGap filler further.breaks fun scanned => ih scanned

theorem Scanned.refilledAround {text text' : Text} (h : Scanned state place text tokens states)
    (refilled : RefilledAround tokens text text') : ∃ tokens' : List Token,
      tokens'.map Token.unplaced = tokens.map Token.unplaced ∧ Scanned state place' text' tokens' states := by
  cases refilled with
  | none _ filler =>
    cases h
    exact ⟨[], rfl, scanned_filler filler⟩
  | first isGap filler further =>
    obtain ⟨next, states, rfl⟩ := h.states_of_cons
    exact h.refill_first isGap filler further.breaks fun scanned => scanned.refilledBehind further

/-- what scans has ignored text around its tokens, so it may stay as it is -/
theorem Scanned.behind_self {text : Text} (h : Scanned state place text tokens states) :
    RefilledBehind tokens text text := by
  induction h with
  | @nil state place text ends =>
    have isGap := Pattern.gap_isGap text
    rw [ends] at isGap
    have whole := Pattern.gap_append text
    rw [ends, List.append_nil] at whole
    rw [whole] at isGap
    exact .last isGap ((isGap.filler Text.not_begins_nil).2 rfl)
  | @cons state next place text piece rest kind tokens states found _ ih =>
    have isGap := Pattern.gap_isGap text
    have whole := Pattern.gap_append text
    obtain ⟨isToken, split⟩ := Token.matches_of_read? found
    rw [← split] at isGap whole
    have filler : Filler (Pattern.gap text).1 :=
      (isGap.filler (Pattern.not_begins_of_ignored isToken.ignored)).1
        (List.append_ne_nil_of_left_ne_nil isToken.ne_nil _)
    have here : RefilledBehind (⟨kind, piece, place.advance (Pattern.gap text).1⟩ :: tokens)
        ((Pattern.gap text).1 ++ (piece ++ rest)) ((Pattern.gap text).1 ++ (piece ++ rest)) :=
      .next isGap filler id ih
    rwa [whole] at here

end Parser

/-- behind the gap at the front it does not matter that this gap is the first one -/
theorem RefilledBehind.around {tokens : List Token} {text text' : Text}
    (h : RefilledBehind tokens text text') : RefilledAround tokens text text' := by
  cases h with
  | last isGap filler => exact .none isGap filler
  | next isGap filler _ further => exact .first isGap filler further

/-- the ignored text around the tokens may stay as it is -/
theorem Text.Refilled.refl {s : Text} {d : Derivation} (h : parse s = .ok d) : s.Refilled s := by
  obtain ⟨_, _, scanned⟩ := leads_of_parse h
  exact ⟨d, h, scanned.behind_self.around⟩

/-! ## Reading -/

namespace SourceFile

/-- two texts with the same derivation, but for places, are read as the same declarations -/
theorem read_of_unplaced {s s' : Text} {d d' : Derivation} {f : SourceFile} (h : parse s = .ok d)
    (h' : parse s' = .ok d') (alike : d'.map Token.unplaced = d.map Token.unplaced) (done : read s = .ok f) :
    ∃ f', read s' = .ok f' ∧ f'.unplaced = f.unplaced := by
  have sameTokens : d'.tokens.map Token.unplaced = d.tokens.map Token.unplaced := by
    rw [← Derivation.tokens_map, alike, Derivation.tokens_map]
  have decodable := Token.decodable_of_unplaced sameTokens (decodable_of_read h done)
  obtain ⟨f', _, done'⟩ := read_of_decodable h' decodable
  obtain ⟨_, parsed, elements⟩ := elements_of_read done
  obtain ⟨_, parsed', elements'⟩ := elements_of_read done'
  rw [h] at parsed
  rw [h'] at parsed'
  cases parsed
  cases parsed'
  have unplace : ∀ {d : Derivation}, d.Valid →
      (d.map Token.unplaced).elementTrees = Tree.movedAll (fun _ => Cursor.start.loc) d.elementTrees :=
    fun valid => Derivation.elementTrees_map (f := Token.unplaced) (g := fun _ => Cursor.start.loc)
      (fun _ => rfl) (fun _ => rfl) (fun _ => rfl) valid
  have moved := Element.ofTrees_moved (fun _ => Cursor.start.loc) _ _ elements
  have moved' := Element.ofTrees_moved (fun _ => Cursor.start.loc) _ _ elements'
  rw [← unplace (explains_of_parse h).valid] at moved
  rw [← unplace (explains_of_parse h').valid, alike, moved] at moved'
  exact ⟨f', done', congrArg SourceFile.mk (Except.ok.inj moved').symm⟩

/-- **A text that is read is read with any other white space and comments around its tokens, as the same
declarations in other places.  There has to be some between two tokens if there was some before.** -/
theorem read_refilled {s s' : Text} {f : SourceFile} (h : read s = .ok f) (refilled : s.Refilled s') :
    ∃ f', read s' = .ok f' ∧ f'.unplaced = f.unplaced := by
  obtain ⟨d, parsed, around⟩ := refilled
  obtain ⟨states, leads, scanned⟩ := leads_of_parse parsed
  obtain ⟨tokens', same, scanned'⟩ := scanned.refilledAround around
  obtain ⟨d', rfl, alike⟩ := d.exists_of_tokens same
  exact read_of_unplaced parsed (Parser.parse_of_leads (leads.of_unplaced alike) scanned') alike h

/-- the variable with comments and a tabulator around its words -/
theorem refilled_variableX :
    RefilledAround variableX.tokens "declare var x" "/**/declare\n\tvar //\nx // y" := by
  have text : Text.ofString "declare var x" = [] ++ (Text.ofString "declare" ++
      (Text.ofString " " ++ (Text.ofString "var" ++ (Text.ofString " " ++ (Text.ofString "x" ++ []))))) := by
    decide
  have text' : Text.ofString "/**/declare\n\tvar //\nx // y" = Text.ofString "/**/" ++
      (Text.ofString "declare" ++ (Text.ofString "\n\t" ++ (Text.ofString "var" ++
        (Text.ofString " //\n" ++ (Text.ofString "x" ++ Text.ofString " // y"))))) := by
    decide
  have isVar : Terminal.VAR.Matches "var" [] := .spelled rfl
  have isName : Terminal.NAME.Matches "x" [] := .name (by decide) Text.not_begins_nil
  have comment : Filler "/**/" := by
    refine @Filler.blockComment [] [] (fun s t e => ?_) .nil
    have lengths := congrArg List.length e
    simp only [List.nil_append, List.length_append, List.length_cons, List.length_nil] at lengths
    exact List.length_eq_zero_iff.mp (by omega)
  have lines : Filler "\n\t" := .blank (by decide) (.blank (by decide) .nil)
  have line : Filler " //\n" := .blank (by decide) (@Filler.lineComment [] [] (by decide) .nil)
  have last : FillerAtEnd " // y" :=
    @FillerAtEnd.lineComment " " " y" (.blank (by decide) .nil) (by decide)
  rw [text, text']
  exact .first (.nil _) comment (.next (gap_space _ isVar) lines (fun _ => by decide)
    (.next (gap_space _ isName) line (fun _ => by decide) (.last (.nil []) last)))

theorem read_refilled_variableX :
    ∃ f f', read "declare var x" = .ok f ∧
      Text.Refilled "declare var x" "/**/declare\n\tvar //\nx // y" ∧
      read "/**/declare\n\tvar //\nx // y" = .ok f' ∧ f'.unplaced = f.unplaced := by
  have refilled : Text.Refilled "declare var x" "/**/declare\n\tvar //\nx // y" :=
    ⟨variableX, parse_variableX, refilled_variableX⟩
  obtain ⟨f', done', alike⟩ := read_refilled read_variableX refilled
  exact ⟨_, f', read_variableX, refilled, done', alike⟩

end SourceFile

end Typings
