import Typings.Proofs.Syntax.Joining
import Typings.Proofs.Syntax.Naming
/-!
# Texts of lexemes

A printed text is a row of lexemes, with a space in front of some.  Two texts are put one behind the
other if the second one does not make the last lexeme of the first one longer.

* `Written`                      a text is a row of lexemes with nothing but blanks in front of each;
* `Written.append`, `beside`     a text behind another one;
* `Written.flatMap`              texts one behind the other;
* `Written.laid`                 the lexemes have places in the text;
* `Derivation.parse_of_written`  a derivation is found in its text.
-/

namespace Typings

/-! ## Texts that stand apart -/

/-- a part of a name or a number -/
def CodePoint.joins (x : CodePoint) : Bool := x.isNamePart || x.isDecimal || x == '.'

/-- a lexeme other than an equals sign is made longer by parts of names and numbers only -/
theorem Terminal.joins_of_goesOn {t : Terminal} (other : t ≠ .EQUAL) {x : CodePoint} (h : t.goesOn x = true) :
    x.joins = true := by
  cases t
  case EQUAL => exact absurd rfl other
  case NUMERAL => exact h
  case NAME => exact Bool.or_eq_true_iff.mpr (.inl (Bool.or_eq_true_iff.mpr (.inl h)))
  case DOT => exact Bool.or_eq_true_iff.mpr (.inr h)
  all_goals
    first
    | exact absurd h Bool.false_ne_true
    | exact Bool.or_eq_true_iff.mpr (.inl (Bool.or_eq_true_iff.mpr (.inl h)))

/-- a punctuation mark that does not show, and that nothing makes longer -/
def Terminal.isMark (t : Terminal) : Bool := !t.isKept && !t.isKeyword && t != .EQUAL && t != .DOT

theorem Terminal.not_begins_of_isMark {t : Terminal} (h : t.isMark = true) (text : Text) :
    ¬ text.Begins t.goesOn := by
  rintro ⟨x, _, goesOn⟩
  cases t
  all_goals
    first
    | exact Bool.false_ne_true h
    | exact Bool.false_ne_true goesOn

theorem Terminal.matches_name {name : Text} (h : name.isName = true) : NAME.Matches name [] :=
  .name h Text.not_begins_nil

/-- a keyword or a punctuation mark is a lexeme -/
theorem Terminal.matches_spelling {t : Terminal} (h : t.spelling? ≠ none) :
    t.Matches (Text.ofString (t.spelling?.getD "")) [] := by
  obtain ⟨s, e⟩ := Option.ne_none_iff_exists'.mp h
  rw [e]
  exact .spelled e

/-- a word for a keyword is a lexeme -/
theorem Terminal.matches_of_isWord {t : Terminal} {word : Text} (h : t.isWord word = true) : t.Matches word [] := by
  obtain ⟨s, e, rfl⟩ := spelling_of_isWord h
  exact .spelled e

namespace Text

/-- nothing that begins a text makes a lexeme in front of it longer, other than an equals sign -/
def Apart (t : Text) : Prop := ¬ t.Begins CodePoint.joins

theorem apart_nil : Apart [] := not_begins_nil

theorem apart_cons {x : CodePoint} (h : x.joins = false) (t : Text) : Apart (x :: t) := not_begins_cons h t

/-- it makes no lexeme longer other than an equals sign -/
theorem Apart.not_begins {t : Text} (h : t.Apart) {kind : Terminal} (other : kind ≠ .EQUAL) :
    ¬ t.Begins kind.goesOn :=
  fun begins => h (begins.imp fun _ => Terminal.joins_of_goesOn other)

theorem Apart.append {s t : Text} (h : s.Apart) (h' : t.Apart) : (s ++ t).Apart := by
  cases s with
  | nil => exact h'
  | cons => exact h

end Text

/-! ## Written texts -/

/-- a text is a row of lexemes with nothing but blanks in front of each, and nothing behind a lexeme makes
it longer -/
inductive Written : List Token → Text → Prop
  | nil : Written [] []
  | cons {gap rest : Text} {token : Token} {tokens : List Token} (blank : ∀ x ∈ gap, x.isBlank = true)
      (isToken : token.kind.Matches token.text []) (ends : ¬ rest.Begins token.kind.goesOn)
      (further : Written tokens rest) : Written (token :: tokens) (gap ++ (token.text ++ rest))

namespace Written
variable {tokens more : List Token} {text behind rest : Text} {token : Token}

/-- a lexeme with nothing in front of it -/
theorem lexeme (isToken : token.kind.Matches token.text []) (ends : ¬ rest.Begins token.kind.goesOn)
    (further : Written tokens rest) : Written (token :: tokens) (token.text ++ rest) :=
  .cons (fun _ h => absurd h List.not_mem_nil) isToken ends further

theorem one (isToken : token.kind.Matches token.text []) : Written [token] token.text := by
  have alone := lexeme isToken Text.not_begins_nil .nil
  rwa [List.append_nil] at alone

/-- more blanks in front of the first lexeme -/
theorem behind_blank {gap : Text} (more : ∀ x ∈ gap, x.isBlank = true) (h : Written (token :: tokens) text) :
    Written (token :: tokens) (gap ++ text) := by
  cases h with
  | cons blank isToken ends further =>
    rw [← List.append_assoc]
    exact .cons (List.forall_mem_append.mpr ⟨more, blank⟩) isToken ends further

/-- one more space in front of the first lexeme -/
theorem spaced (h : Written (token :: tokens) text) :
    Written (token :: tokens) (Text.ofString " " ++ text) :=
  h.behind_blank (by decide)

/-- a lexeme with a space behind it -/
theorem word {next : Token} (isToken : token.kind.Matches token.text [])
    (further : Written (next :: tokens) rest) :
    Written (token :: next :: tokens) (token.text ++ (Text.ofString " " ++ rest)) :=
  .lexeme isToken (Text.not_begins_cons (Terminal.goesOn_space _) rest) further.spaced

/-- a text with a lexeme is not empty -/
theorem ne_nil (h : Written (token :: tokens) text) : text ≠ [] := by
  cases h with
  | cons _ isToken =>
    obtain ⟨x, piece, e, _⟩ := isToken.first
    rw [e]
    exact List.append_ne_nil_of_right_ne_nil _ (List.cons_ne_nil _ _)

/-- a text behind another one, if it does not make the last lexeme longer -/
theorem append (h : Written tokens text) (h' : Written more behind)
    (apart : ∀ t ∈ tokens.getLast?, ¬ behind.Begins t.kind.goesOn) :
    Written (tokens ++ more) (text ++ behind) := by
  induction h with
  | nil => exact h'
  | @cons gap rest token tokens blank isToken ends further ih =>
    rw [List.append_assoc, List.append_assoc]
    cases further with
    | nil => exact .cons blank isToken (apart token rfl) h'
    | cons blank' isNext ends' behindNext =>
      have further := Written.cons blank' isNext ends' behindNext
      refine .cons blank isToken ?_ (ih fun t mem => apart t ?_)
      · rwa [Text.Begins, List.head?_append_of_ne_nil _ further.ne_nil]
      · rw [List.getLast?_cons, Option.mem_def.mp mem]
        rfl

/-- a text behind lexemes other than equals signs -/
theorem beside (h : Written tokens text) (h' : Written more behind) (others : ∀ t ∈ tokens, t.kind ≠ .EQUAL)
    (apart : behind.Apart) : Written (tokens ++ more) (text ++ behind) :=
  h.append h' fun t mem => apart.not_begins (others t (List.mem_of_mem_getLast? mem))

/-- texts one behind the other, if the last lexeme of each is of a class that none of the texts makes
longer -/
theorem flatMap {α : Type} {P : Terminal → Prop} {l : List α} {f : α → List Token} {g : α → Text}
    (h : Written tokens text) (last : ∀ t ∈ tokens.getLast?, P t.kind) (each : ∀ a ∈ l, Written (f a) (g a))
    (lasts : ∀ a ∈ l, ∀ t ∈ (f a).getLast?, P t.kind)
    (apart : ∀ a ∈ l, ∀ k, P k → ¬ (g a).Begins k.goesOn) :
    Written (tokens ++ l.flatMap f) (text ++ l.flatMap g) := by
  induction l generalizing tokens text with
  | nil => simpa using h
  | cons a l ih =>
    obtain ⟨here, each⟩ := List.forall_mem_cons.mp each
    obtain ⟨lastHere, lasts⟩ := List.forall_mem_cons.mp lasts
    obtain ⟨apartHere, apart⟩ := List.forall_mem_cons.mp apart
    rw [List.flatMap_cons, List.flatMap_cons, ← List.append_assoc, ← List.append_assoc]
    refine ih (h.append here fun t mem => apartHere _ (last t mem)) (fun t mem => ?_) each lasts apart
    rw [List.getLast?_append, Option.mem_def, Option.or_eq_some_iff] at mem
    rcases mem with mem | ⟨_, mem⟩
    · exact lastHere t mem
    · exact last t mem

/-- the lexemes have places in the text -/
theorem laid (h : Written tokens text) (place : Cursor) :
    ∃ tokens' : List Token, tokens'.map Token.unplaced = tokens.map Token.unplaced ∧
      Laid place text tokens' := by
  induction h generalizing place with
  | nil => exact ⟨[], rfl, .nil (.nil [])⟩
  | @cons gap rest token tokens blank isToken ends _ ih =>
    obtain ⟨kind, piece, start⟩ := token
    obtain ⟨tokens', alike, laid⟩ := ih ((place.advance gap).advance piece)
    refine ⟨⟨kind, piece, place.advance gap⟩ :: tokens', ?_,
      .cons (gap_blanks blank rest isToken) isToken ends laid⟩
    rw [List.map_cons, List.map_cons, alike]
    rfl

end Written

/-! ## Derivations of written texts -/

/-- what holds of tokens holds of the same tokens in other places, if places do not matter to it -/
theorem Parser.Along.of_unplaced {P : Nat → Token → Prop} {state : Nat} {tokens tokens' : List Token}
    {states : List Nat} (h : Along P state tokens states)
    (same : tokens'.map Token.unplaced = tokens.map Token.unplaced)
    (placeless : ∀ s t t', t'.unplaced = t.unplaced → P s t → P s t') : Along P state tokens' states := by
  induction h generalizing tokens' with
  | nil =>
    obtain rfl := List.map_eq_nil_iff.mp same
    exact .nil
  | cons here _ ih =>
    obtain ⟨t, ts, rfl, alike, same⟩ := List.map_eq_cons_iff.mp same
    exact .cons (placeless _ _ _ alike here) (ih same)

theorem Token.Plain.of_unplaced {state : Nat} {t t' : Token} (alike : t'.unplaced = t.unplaced)
    (h : t.Plain state) : t'.Plain state := by
  obtain ⟨kind, text, start⟩ := t
  obtain ⟨kind', text', start'⟩ := t'
  cases alike
  exact h

/-- a derivation with a course whose names are no keywords where they stand is found in its text -/
theorem Derivation.parse_of_written {d : Derivation} {text : Text} {states : List Nat} (leads : d.Leads states)
    (unworded : d.Unworded none) (written : Written d.tokens text) :
    ∃ e, parse text = .ok e ∧ e.map Token.unplaced = d.map Token.unplaced := by
  obtain ⟨tokens, same, laid⟩ := written.laid .start
  obtain ⟨e, rfl, alike⟩ := d.exists_of_tokens same
  have leads' := leads.of_unplaced alike
  have plain := (leads.plain unworded).of_unplaced same fun _ _ _ => Token.Plain.of_unplaced
  exact ⟨e, Parser.parse_of_leads leads' (Parser.scanned_of_laid laid (leads'.expects.and plain)), alike⟩

end Typings
