import Typings.Proofs.Report.BadLiterals
import Typings.Proofs.Report.ErrorPlaces
/-!
# What is said of a failure

A text that is not read has one diagnostic.  It is made in one way of a syntax error and in another way of a string
literal that cannot be decoded, but both say the same of the failure, with one exception: where the file is called
by the empty text, the diagnostic of a literal is about a file without a name.

* `SourceFile.exists_literal_of_read`   the literal of an error, and the derivation that it stands in;
* `SourceFile.at_of_read_error`         a failure is at a place of the text;
* `ReadError.label`                     the name of the file in a diagnostic;
* `ReadError.toJson_diagnostic`         the diagnostic as a structured value;
* `SourceFile.check_describes`          the main result.
-/

namespace Typings

/-! ## Places -/

/-- lines and columns are counted from one -/
theorem Text.At.place_pos {source rest : Text} {l : Loc} (h : source.At l rest) : 0 < l.line ∧ 0 < l.column := by
  obtain ⟨front, -, rfl⟩ := h
  exact ⟨Nat.add_pos_left Nat.one_pos _, Nat.add_pos_left Nat.one_pos _⟩

/-- an error that is where it says is at a place of the text -/
theorem SyntaxError.Exact.exists_at {source : Text} {e : SyntaxError} (h : e.Exact source) :
    ∃ rest, source.At e.place rest := by
  cases e with
  | refused token _ | misplaced token _ _ =>
    by_cases isEnd : token.kind = .END
    · obtain ⟨_, last, _, _, front, gap, _, _, whole, _, _, place, same⟩ := h.2 isEnd
      exact ⟨_, front, whole, same.trans place⟩
    · obtain ⟨_, rest, place⟩ := h.1 isEnd
      exact ⟨_, place⟩
  | unreadable =>
    obtain ⟨rest, place, _⟩ := h
    exact ⟨_, place⟩
  | derailed => exact h.elim

namespace SourceFile
variable {source : Text}

/-- a token of an accepted text stands where it starts -/
theorem at_of_mem_tokens {d : Derivation} (accepted : parse source = .ok d) {t : Token} (mem : t ∈ d.tokens) :
    ∃ rest, source.At t.start.loc (t.text ++ rest) := by
  obtain ⟨front, rest, whole, start⟩ := (explains_of_parse accepted).spelled.starts t mem
  refine ⟨rest, front, whole, ?_⟩
  rw [start, Cursor.loc_advance]

/-- the error of a literal is that of a token of the text, which is accepted -/
theorem exists_literal_of_read {b : BuildError} (failed : read source = .error (.buildError b)) :
    ∃ d t fault, parse source = .ok d ∧ t ∈ d.tokens ∧ Literal.decode t.text = .error fault ∧
      b = .badLiteral t.text fault t.start.loc := by
  cases parsed : parse source with
  | error e =>
    rw [read_of_parse_error parsed] at failed
    cases failed
  | ok d =>
    have outcome := read_of_parse parsed
    cases first : d.literals.findSome? Token.fault? with
    | none =>
      rw [first] at outcome
      obtain ⟨f, done, _⟩ := outcome
      rw [done] at failed
      cases failed
    | some e =>
      rw [first] at outcome
      cases outcome.symm.trans failed
      obtain ⟨t, mem, found⟩ := List.exists_of_findSome?_eq_some first
      obtain ⟨fault, bad, rfl⟩ := Token.fault?_eq_some_iff.mp found
      exact ⟨d, t, fault, rfl, ((d.mem_literals t).mp mem).1, bad, rfl⟩

/-- an accepted text with a literal that cannot be decoded has the error of a literal -/
theorem read_of_undecodable {d : Derivation} (accepted : parse source = .ok d) {t : Token} (mem : t ∈ d.tokens)
    (bad : t.Undecodable) : ∃ b, read source = .error (.buildError b) := by
  have outcome := read_of_parse accepted
  obtain ⟨isString, fault, failed⟩ := bad
  cases first : d.literals.findSome? Token.fault? with
  | none =>
    have good := List.findSome?_eq_none_iff.mp first t ((d.mem_literals t).mpr ⟨mem, isString⟩)
    exact absurd good (Token.fault?_ne_none failed)
  | some b =>
    rw [first] at outcome
    exact ⟨b, outcome⟩

/-- a failure is at a place of the text -/
theorem at_of_read_error {e : ReadError} (failed : read source = .error e) : ∃ rest, source.At e.loc rest := by
  cases e with
  | syntaxError s => exact (SyntaxError.exact_of_parse (parse_of_read_error failed)).exists_at
  | buildError b =>
    obtain ⟨d, t, fault, accepted, mem, _, rfl⟩ := exists_literal_of_read failed
    obtain ⟨rest, place⟩ := at_of_mem_tokens accepted mem
    exact ⟨_, place⟩

end SourceFile

/-! ## Diagnostics -/

namespace ReadError

/-- what the diagnostic of an error calls the file: with a tree that cannot be read, an empty name is no name -/
def label (file : Text) : ReadError → Option Text
  | syntaxError _ => some file
  | buildError _ => if file = [] then none else some file

theorem span_file (file : Text) (e : ReadError) : (e.span file).file = e.label file := by
  cases e with
  | syntaxError => rfl
  | buildError => cases file <;> rfl

/-- an error is told in one form, however its span was made -/
theorem toJson_diagnostic (file source : Text) (e : ReadError) : (e.diagnostic file source).toJson = .object [
    ("phase", .text "parser"), ("message", .text (e.message source)), ("severity", .text "error"),
    ("file", .ofOption .text (e.label file)), ("line", .int e.loc.line), ("column", .int e.loc.column),
    ("notes", .array [])] := by
  rw [Diagnostic.toJson, ← span_file]
  cases e <;> rfl

/-- and in one line, where a file without a name and one with an empty name are shown alike -/
theorem format_diagnostic (file source : Text) (e : ReadError) : (e.diagnostic file source).format =
    (if file = [] then Text.ofString "<input>" else file) ++ Text.ofString ":" ++ Text.ofInt e.loc.line ++
      Text.ofString ":" ++ Text.ofInt e.loc.column ++ Text.ofString ": " ++ Text.ofString "error" ++
      Text.ofString ": " ++ e.message source := by
  cases e <;> cases file <;> rfl

end ReadError

namespace SourceFile

/-- the name is lost for an accepted text only -/
theorem label_of_read_error {source : Text} {e : ReadError} (failed : read source = .error e) (file : Text) :
    e.label file = if file = [] ∧ (parse source).isOk = true then none else some file := by
  cases e with
  | syntaxError s =>
    rw [parse_of_read_error failed, if_neg fun h => Bool.false_ne_true h.2]
    rfl
  | buildError b =>
    obtain ⟨d, _, _, accepted, _⟩ := exists_literal_of_read failed
    rw [accepted, ReadError.label]
    simp only [Except.isOk, Except.toBool, and_true]

/-- **A text has no diagnostic exactly if it is read, and then its declarations are given.  Otherwise it has a
single one, an error of the parser, with the line and the column of the failure, which are those of a place of the
text.  The file is called as it is given, also by the empty text, but for one case: the text is accepted, and its
failure that of a literal, while the name of the file is empty; then the diagnostic has no file.** -/
theorem check_describes (file source : Text) :
    (∀ f, check file source = (some f, []) ↔ read source = .ok f) ∧
    ∀ e, read source = .error e → e.Reported ∧
      (∃ rest, source.At e.loc rest ∧ 0 < e.loc.line ∧ 0 < e.loc.column) ∧
      ∃ d, check file source = (none, [d]) ∧
        d.toJson = .object [
          ("phase", .text "parser"), ("message", .text (e.message source)), ("severity", .text "error"),
          ("file", if file = [] ∧ (parse source).isOk = true then .null else .text file),
          ("line", .int e.loc.line), ("column", .int e.loc.column), ("notes", .array [])] ∧
        d.format = (if file = [] then Text.ofString "<input>" else file) ++ Text.ofString ":" ++
          Text.ofInt e.loc.line ++ Text.ofString ":" ++ Text.ofInt e.loc.column ++ Text.ofString ": " ++
          Text.ofString "error" ++ Text.ofString ": " ++ e.message source := by
  refine ⟨fun f => ⟨fun checked => ?_, fun done => Conversion.check_of_ok done file⟩, fun e failed => ?_⟩
  · cases done : read source with
    | error e =>
      rw [Conversion.check_of_error done] at checked
      cases checked
    | ok f' =>
      rw [Conversion.check_of_ok done] at checked
      cases checked
      rfl
  · have reported := read_reported source
    rw [failed] at reported
    obtain ⟨rest, place⟩ := at_of_read_error failed
    refine ⟨reported, ⟨rest, place, place.place_pos⟩, e.diagnostic file source, Conversion.check_of_error failed file,
      ?_, e.format_diagnostic file source⟩
    rw [e.toJson_diagnostic, label_of_read_error failed]
    split <;> rfl

theorem check_describes_semicolon : ∃ e d, read ";" = .error e ∧ e.Reported ∧ check [] ";" = (none, [d]) ∧
    d.toJson = .object [
      ("phase", .text "parser"), ("message", .text (e.message ";")), ("severity", .text "error"), ("file", .text []),
      ("line", .int e.loc.line), ("column", .int e.loc.column), ("notes", .array [])] := by
  obtain ⟨s, _, refused, _⟩ := parse_semicolon
  obtain ⟨reported, _, d, checked, told, _⟩ := (check_describes [] ";").2 _ (read_of_parse_error refused)
  have named : ¬ (([] : Text) = [] ∧ (parse ";").isOk = true) := by
    rw [refused]
    exact fun h => Bool.false_ne_true h.2
  rw [if_neg named] at told
  exact ⟨_, d, read_of_parse_error refused, reported, checked, told⟩

/-- an undecodable literal in a file called by the empty text is in no file, but a syntax error is -/
theorem check_emptyName :
    let text : Text := "interface A \x7b [ k : \x7b \"\\x\" \x7d ] : \x7b \"\\u\" \x7d \x7d"
    (∃ b d, read text = .error (.buildError b) ∧ check [] text = (none, [d]) ∧ d.span.file = none) ∧
      ∃ e d, read ";" = .error (.syntaxError e) ∧ check [] ";" = (none, [d]) ∧ d.span.file = some [] := by
  obtain ⟨mem, bad⟩ := first_badIndex.mem
  obtain ⟨b, failed⟩ := read_of_undecodable parse_badIndex mem bad
  obtain ⟨e, _, refused, _⟩ := parse_semicolon
  have failed' := read_of_parse_error refused
  exact ⟨⟨b, _, failed, Conversion.check_of_error failed [], rfl⟩, e, _, failed',
    Conversion.check_of_error failed' [], rfl⟩

end SourceFile

end Typings
