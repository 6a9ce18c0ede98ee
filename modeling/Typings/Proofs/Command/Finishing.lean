import Typings.Proofs.Command.Delivery
import Typings.Proofs.Command.HandOff
import Typings.Proofs.Json.Ascii
/-!
# How a run ends

A run whose arguments are understood, and whose output can be written, ends with code zero or one, but for three
things: no file can be asked for by the path of the source, the bytes of the source spell no text, or a listing with
a surrogate goes to a file.  A run that is asked for a structured value leaves one, whose code is that of the run and
whose diagnostics hold an error if and only if the code is one.  It tells the warnings and the classes, too, unless
the source cannot be read: then it tells code and diagnostics alone.

That a listing with a surrogate can be printed, and that a deeply nested source ends no run, are assumptions about
the output and the room that a run has; the files are those below the working directory.

* `FileSystem.Writable`       the output goes to no file, or to one that can be written;
* `FileSystem.Raises`         the runs that do not end with a code;
* `FileSystem.Delivers`       where a run leaves its product;
* `Command.summary`           the structured value about a source that cannot be read;
* `FileSystem.Accounts`       what a run leaves that is asked for a structured value;
* `FileSystem.execute_ends`   the main result.
-/

namespace Typings

/-! ## Arguments -/

namespace Request

theorem consume_json (r : Request) (pieces : List Piece) :
    r.consume (.option .json true none :: pieces) = { r with json := true }.consume pieces := by
  rw [consume]
  rfl

theorem consume_output (r : Request) (value : Text) (pieces : List Piece) :
    r.consume (.option .output false none :: .operand value :: pieces) =
      { r with output := some (.ofValue value) }.consume pieces := by
  rw [consume]
  rfl

end Request

namespace Command
open Conversion

/-! ## Codes and products -/

/-- code and diagnostics as a structured value, with neither warnings nor classes -/
def summary (code : Nat) (ds : List Diagnostic) : Json :=
  .object [("exit_code", .int code), ("diagnostics", .array (ds.map Diagnostic.toJson))]

/-- the conversion of the source that a run reports on -/
def conversion (a : Arguments) (t : Text) : Conversion :=
  convert { verbosity := a.verbosity, filename := a.source.toText } t

theorem exitCode_or (ds : List Diagnostic) : exitCode ds = 0 ∨ exitCode ds = 1 := by
  unfold exitCode
  split
  · exact .inr rfl
  · exact .inl rfl

/-- the code is one if there is an error, and warnings are no errors -/
theorem exitCode_eq_one_iff (file : Text) (c : Conversion) :
    exitCode c.diagnostics = 1 ↔ ∃ d ∈ diagnostics file c, d.isError = true := by
  have warnings : ∀ d ∈ c.lowered.warnings.map (warned file), d.isError = false :=
    List.forall_mem_map.mpr fun _ _ => rfl
  unfold exitCode diagnostics
  split
  · rename_i some
    obtain ⟨d, mem, isError⟩ := List.any_eq_true.mp some
    exact iff_of_true rfl ⟨d, List.mem_append_left _ mem, isError⟩
  · rename_i none
    refine iff_of_false Nat.zero_ne_one ?_
    rintro ⟨d, mem, isError⟩
    rcases List.mem_append.mp mem with mem | mem
    · exact none (List.any_eq_true.mpr ⟨d, mem, isError⟩)
    · exact Bool.false_ne_true ((warnings d mem).symm.trans isError)

/-- no value is written as the empty text -/
theorem line_printIndented (v : Json) : line v.printIndented = v.printIndented ++ Text.ofString "\n" := by
  obtain ⟨x, rest, split, _⟩ := Json.printAt_opens .indented 0 v (.inl rfl)
  rw [line, Json.printIndented, split]
  rfl

theorem shown_printIndented (v : Json) : v.Shown (v.printIndented ++ Text.ofString "\n") :=
  ⟨.indented, Json.Layout.indented_spaced, rfl⟩

theorem reportUnreadable_json {a : Arguments} (asked : a.json = true) (fault : FileFault) :
    reportUnreadable a fault =
      { code := 1, out := (summary 1 [unreadable a.source.toText fault]).print ++ Text.ofString "\n" } := by
  rw [reportUnreadable, if_pos asked, Conversion.lines, List.flatMap_singleton]
  rfl

/-- the report on a text that gives no declarations, with the product if a structured value is asked for -/
theorem reportText_of_error_json {a : Arguments} (asked : a.json = true) {t : Text} {e : ReadError}
    (h : SourceFile.read t = .error e) : reportText a t =
      { code := 1, out := product a a.source.toText (conversion a t) ++ Text.ofString "\n", err := remarks a t } := by
  unfold reportText
  simp only [exitCode_of_error h]
  rw [if_neg Nat.one_ne_zero, if_pos asked]
  rfl

end Command

namespace FileSystem
open Command

/-! ## Ends -/

/-- the output goes to no file, or to one that can be written -/
def Writable (fs : FileSystem) (a : Arguments) : Prop :=
  ∀ target ∈ a.output, ∃ path, target = .file path ∧ path.fault? = none ∧ ∃ files, fs.write path [] = .ok files

/-- a run does not end with a code: no file can be asked for by the path of the source, the bytes of the source
spell no text, or a listing with a surrogate goes to a file -/
inductive Raises (fs : FileSystem) (a : Arguments) : Prop
  | unnameable {fault : PathFault} (h : a.source.fault? = some fault)
  | undecodable {bytes : List UInt8} (nameable : a.source.fault? = none) (found : fs.read a.source = .ok bytes)
      (h : Utf8.decode? bytes = none)
  | unencodable {bytes : List UInt8} {t : Text} {f : SourceFile} {x : CodePoint} (nameable : a.source.fault? = none)
      (found : fs.read a.source = .ok bytes) (text : sourceText? bytes = some t) (done : SourceFile.read t = .ok f)
      (noJson : a.json = false) (toFile : a.output ≠ none) (mem : x ∈ Class.listing f.lower.classes)
      (surrogate : x.isSurrogate = true)

/-- where a run leaves its product: on the output if it fails or no file is named, and else in the file that is
named, while no other file is changed -/
inductive Delivers (fs : FileSystem) (a : Arguments) (product : Text) : Nat → Text → FileSystem → Prop
  | out {code : Nat} (onOutput : code = 1 ∨ a.output = none) : Delivers fs a product code product fs
  | file {path : Path} {place : List Text} {bytes : List UInt8} {files : FileSystem}
      (named : a.output = some (.file path)) (stands : files.entry path = .file place bytes)
      (spells : Utf8.decode? bytes = some product)
      (others : ∀ other ≠ place, files.files.lookup other = fs.files.lookup other) : Delivers fs a product 0 [] files

theorem deliver_of_unencodable {fs : FileSystem} {path : Path} {place : List Text} {text : Text}
    {fault : Utf8.Fault} (nameable : path.fault? = none) (target : fs.Reaches path place)
    (h : Utf8.encode text = .error fault) : fs.deliver text (.file path) = .error (.unencodable fault) := by
  unfold deliver
  simp only [nameable, write_eq [] target, h]

section
variable {fs : FileSystem} {args : List Text} {a : Arguments} (accepted : Arguments.ofList args = .ok a)
include accepted

theorem execute_of_unnameable {fault : PathFault} (h : a.source.fault? = some fault) :
    fs.execute args = .unnameable fault := by
  unfold execute run
  simp only [accepted, h]

variable (nameable : a.source.fault? = none)
include nameable

theorem execute_of_undecodable {bytes : List UInt8} (found : fs.read a.source = .ok bytes)
    (h : Utf8.decode? bytes = none) : fs.execute args = .undecodable := by
  have noText : sourceText? bytes = none := by rw [sourceText?, h, Option.map_none]
  unfold execute run report
  simp only [accepted, nameable, found, noText]

/-- a source that cannot be read -/
theorem execute_of_unreadable (asked : a.json = true) {fault : FileFault} (h : fs.read a.source = .error fault) :
    fs.execute args = .finished 1 ((summary 1 [unreadable a.source.toText fault]).print ++ Text.ofString "\n") [] fs := by
  have reported := run_of_fault accepted nameable h
  rw [reportUnreadable_json asked] at reported
  exact execute_of_report reported rfl

variable (writable : fs.Writable a) {bytes : List UInt8} {t : Text} (found : fs.read a.source = .ok bytes)
  (text : sourceText? bytes = some t)
include writable found text

/-- a listing with a surrogate does not get into a file -/
theorem execute_of_unencodable {f : SourceFile} (done : SourceFile.read t = .ok f) (noJson : a.json = false)
    (toFile : a.output ≠ none) {x : CodePoint} (mem : x ∈ Class.listing f.lower.classes)
    (surrogate : x.isSurrogate = true) : ∃ fault, fs.execute args = .undelivered fault := by
  obtain ⟨target, named⟩ := Option.ne_none_iff_exists'.mp toFile
  obtain ⟨path, rfl, pathNameable, _, opened⟩ := writable target named
  obtain ⟨place, target⟩ := exists_target_of_write opened
  have product_eq : product a a.source.toText (convert {} t) = Class.listing f.lower.classes := by
    rw [product, noJson, Conversion.convert_of_ok done]
    rfl
  cases encoded : Utf8.encode (line (product a a.source.toText (convert {} t))) with
  | ok bytes =>
    have inLine : x ∈ line (product a a.source.toText (convert {} t)) := by
      rw [product_eq, line]
      split
      · rename_i empty
        rw [List.isEmpty_iff.mp empty] at mem
        cases mem
      · exact List.mem_append_left _ mem
    have scalar := Utf8.scalar_of_encode encoded x inLine
    exact absurd (scalar.symm.trans surrogate) Bool.false_ne_true
  | error fault =>
    refine ⟨.unencodable fault, ?_⟩
    unfold execute
    rw [run_of_text accepted nameable found text, reportText_of_ok a done {}, named]
    simp only [deliver_of_unencodable pathNameable target encoded]

/-- a run with a source that gives declarations leaves its product if the product has bytes, or goes to no file -/
theorem execute_of_ok {f : SourceFile} (done : SourceFile.read t = .ok f)
    (scalar : a.output ≠ none → ∀ x ∈ line (product a a.source.toText (conversion a t)), x.isSurrogate = false) :
    ∃ out err files, fs.execute args = .finished 0 out err files ∧
      fs.Delivers a (line (product a a.source.toText (conversion a t))) 0 out files := by
  cases named : a.output with
  | none => exact ⟨_, _, _, execute_out accepted nameable found text done _ named, .out (.inr named)⟩
  | some target =>
    obtain ⟨path, rfl, pathNameable, _, opened⟩ := writable target named
    obtain ⟨place, target⟩ := exists_target_of_write opened
    obtain ⟨written, encoded⟩ := Utf8.exists_encode (scalar (named ▸ Option.some_ne_none _))
    exact ⟨_, _, _, execute_file accepted nameable found text done _ named pathNameable target encoded,
      .file named (entry_put written target) (Utf8.decode?_of_encode encoded) fun other ne =>
        lookup_put_ne fs place written ne⟩

/-- a run on a text that is asked for a structured value -/
theorem execute_json (asked : a.json = true) : ∃ out err files,
    fs.execute args = .finished (exitCode (conversion a t).diagnostics) out err files ∧
      fs.Delivers a ((payload a.source.toText (conversion a t)).printIndented ++ Text.ofString "\n")
        (exitCode (conversion a t).diagnostics) out files := by
  have product_eq : product a a.source.toText (conversion a t) =
      (payload a.source.toText (conversion a t)).printIndented := by rw [product, if_pos asked]
  cases done : SourceFile.read t with
  | error e =>
    have code : exitCode (conversion a t).diagnostics = 1 := exitCode_of_error done _
    rw [code, ← product_eq]
    refine ⟨_, remarks a t, fs, ?_, .out (.inl rfl)⟩
    have reported := run_of_text accepted nameable found text
    rw [reportText_of_error_json asked done] at reported
    exact execute_of_report reported rfl
  | ok f =>
    have code : exitCode (conversion a t).diagnostics = 0 := exitCode_of_ok done _
    have delivered := execute_of_ok accepted nameable writable found text done
    rw [product_eq, line_printIndented] at delivered
    rw [code]
    exact delivered fun _ => (shown_printIndented _).scalar

/-- a run on a text that is asked for a listing -/
theorem execute_listing (noJson : a.json = false) (encodable : ∀ f, SourceFile.read t = .ok f → a.output ≠ none →
    ∀ x ∈ Class.listing f.lower.classes, x.isSurrogate = false) :
    ∃ code out err files, fs.execute args = .finished code out err files ∧ (code = 0 ∨ code = 1) := by
  cases done : SourceFile.read t with
  | error e =>
    obtain ⟨out, err, finished, _⟩ := execute_of_fails accepted nameable (.inr ⟨bytes, t, e, found, text, done⟩)
    exact ⟨1, out, err, fs, finished, .inr rfl⟩
  | ok f =>
    have product_eq : product a a.source.toText (conversion a t) = Class.listing f.lower.classes := by
      rw [product, noJson, conversion, Conversion.convert_of_ok done]
      rfl
    have scalar : a.output ≠ none → ∀ x ∈ line (product a a.source.toText (conversion a t)), x.isSurrogate = false :=
      fun toFile => line_scalar (product_eq ▸ encodable f done toFile)
    obtain ⟨out, err, files, finished, _⟩ := execute_of_ok accepted nameable writable found text done scalar
    exact ⟨0, out, err, files, finished, .inl rfl⟩

end

/-! ## The report -/

/-- what a run leaves that is asked for a structured value.  The value has the code of the run and the diagnostics,
which hold an error if and only if the code is one, and it tells the conversion as a whole, unless the source cannot
be read. -/
def Accounts (fs : FileSystem) (a : Arguments) (code : Nat) (out : Text) (files : FileSystem) : Prop :=
  ∃ ds v text, (code = 1 ↔ ∃ d ∈ ds, d.isError = true) ∧ v.Shown text ∧ fs.Delivers a text code out files ∧
    ((∃ fault, fs.read a.source = .error fault ∧ ds = [unreadable a.source.toText fault] ∧ v = summary code ds) ∨
      ∃ bytes t, fs.read a.source = .ok bytes ∧ sourceText? bytes = some t ∧
        ds = diagnostics a.source.toText (conversion a t) ∧
        v = handOff code ds ((conversion a t).lowered.warnings.map fun w => Text.ofString w.message)
          (conversion a t).lowered.classes)

section
variable {fs : FileSystem} {args : List Text} {a : Arguments} (accepted : Arguments.ofList args = .ok a)
include accepted

theorem accounts_of_unreadable (nameable : a.source.fault? = none) (asked : a.json = true) {fault : FileFault}
    (h : fs.read a.source = .error fault) :
    ∃ out err files, fs.execute args = .finished 1 out err files ∧ fs.Accounts a 1 out files := by
  have isError : 1 = 1 ↔ ∃ d ∈ [unreadable a.source.toText fault], d.isError = true :=
    iff_of_true rfl ⟨_, List.mem_singleton_self _, rfl⟩
  exact ⟨_, _, _, execute_of_unreadable accepted nameable asked h, _, _, _, isError,
    ⟨.line, Json.Layout.line_spaced, rfl⟩, .out (.inl rfl), .inl ⟨fault, h, rfl, rfl⟩⟩

variable (writable : fs.Writable a)
include writable

theorem not_finished_of_raises (h : fs.Raises a) :
    ¬ ∃ code out err files, fs.execute args = .finished code out err files := by
  rintro ⟨code, out, err, files, finished⟩
  cases h with
  | unnameable fault => cases (execute_of_unnameable accepted fault).symm.trans finished
  | undecodable nameable found bad => cases (execute_of_undecodable accepted nameable found bad).symm.trans finished
  | unencodable nameable found text done noJson toFile mem surrogate =>
    obtain ⟨fault, undelivered⟩ :=
      execute_of_unencodable accepted nameable writable found text done noJson toFile mem surrogate
    cases undelivered.symm.trans finished

theorem accounts_of_text (nameable : a.source.fault? = none) (asked : a.json = true) {bytes : List UInt8} {t : Text}
    (found : fs.read a.source = .ok bytes) (text : sourceText? bytes = some t) :
    ∃ code out err files, fs.execute args = .finished code out err files ∧ (code = 0 ∨ code = 1) ∧
      fs.Accounts a code out files := by
  obtain ⟨out, err, files, finished, delivered⟩ := execute_json accepted nameable writable found text asked
  have value := product_eq_handOff asked a.source.toText (conversion a t)
  rw [product, if_pos asked] at value
  rw [value] at delivered
  exact ⟨_, out, err, files, finished, exitCode_or _, _, _, _, exitCode_eq_one_iff _ _, shown_printIndented _, delivered,
    .inr ⟨bytes, t, found, text, rfl, rfl⟩⟩

theorem finished_of_not_raises (h : ¬ fs.Raises a) :
    ∃ code out err files, fs.execute args = .finished code out err files ∧ (code = 0 ∨ code = 1) ∧
      (a.json = true → fs.Accounts a code out files) := by
  cases nameable : a.source.fault? with
  | some fault => exact absurd (.unnameable nameable) h
  | none =>
    cases found : fs.read a.source with
    | error fault =>
      cases asked : a.json with
      | false =>
        obtain ⟨out, err, finished, _⟩ := execute_of_fails accepted nameable (.inl ⟨fault, found⟩)
        exact ⟨1, out, err, fs, finished, .inr rfl, fun no => nomatch no⟩
      | true =>
        obtain ⟨out, err, files, finished, accounts⟩ := accounts_of_unreadable accepted nameable asked found
        exact ⟨1, out, err, files, finished, .inr rfl, fun _ => accounts⟩
    | ok bytes =>
      cases decoded : Utf8.decode? bytes with
      | none => exact absurd (.undecodable nameable found decoded) h
      | some t =>
        have text : sourceText? bytes = some t.unifyLineEnds := by rw [sourceText?, decoded, Option.map_some]
        cases asked : a.json with
        | false =>
          obtain ⟨code, out, err, files, finished, range⟩ :=
            execute_listing accepted nameable writable found text asked fun f done toFile x mem =>
              Bool.eq_false_iff.mpr fun surrogate =>
                h (.unencodable nameable found text done asked toFile mem surrogate)
          exact ⟨code, out, err, files, finished, range, fun no => nomatch no⟩
        | true =>
          obtain ⟨code, out, err, files, finished, range, accounts⟩ :=
            accounts_of_text accepted writable nameable asked found text
          exact ⟨code, out, err, files, finished, range, fun _ => accounts⟩

/-- **With an output that can be written, if one is named, a run ends with code zero or one exactly if none of three things
is in its way: a path of the source that no file can be asked for by, bytes of the source that spell no text, and a
listing with a surrogate for a file.  If a structured value is asked for, any run that ends leaves one, on the output or
in the file.**  It is assumed that the files are those below the working directory (`entryOutside`), that the output and
the remarks take any text, surrogates included, and that there is room for any nesting. -/
theorem execute_ends :
    ((∃ code out err files, fs.execute args = .finished code out err files) ↔ ¬ fs.Raises a) ∧
    ∀ code out err files, fs.execute args = .finished code out err files →
      (code = 0 ∨ code = 1) ∧ (a.json = true → fs.Accounts a code out files) := by
  have ends := finished_of_not_raises accepted writable
  refine ⟨⟨fun finished raises => not_finished_of_raises accepted writable raises finished, fun h => ?_⟩, ?_⟩
  · obtain ⟨code, out, err, files, finished, _⟩ := ends h
    exact ⟨code, out, err, files, finished⟩
  · intro code out err files finished
    obtain ⟨_, _, _, _, finished', ended⟩ := ends fun raises =>
      not_finished_of_raises accepted writable raises ⟨code, out, err, files, finished⟩
    cases finished.symm.trans finished'
    exact ended

end

theorem execute_ends_interface :
    let a : Arguments := ⟨.ofText "a.d.ts", 0, true, some (.file (.ofText "out"))⟩
    Arguments.ofList ["--json", "-o", "out", "a.d.ts"] = .ok a ∧ interfaceFiles.Writable a ∧
      ∃ code out err files, interfaceFiles.execute ["--json", "-o", "out", "a.d.ts"] = .finished code out err files ∧
        (code = 0 ∨ code = 1) ∧ interfaceFiles.Accounts a code out files := by
  intro a
  have accepted : Arguments.ofList ["--json", "-o", "out", "a.d.ts"] = .ok a := by
    show (Request.consume {} [.option .json true none, .option .output false none, .operand "out",
      .operand "a.d.ts"] >>= _) = _
    rw [Request.consume_json, Request.consume_output]
    rfl
  have writable : interfaceFiles.Writable a := by
    rintro _ ⟨⟩
    exact ⟨.ofText "out", rfl, rfl, _, write_eq [] (show interfaceFiles.Reaches (.ofText "out") ["out"] from rfl)⟩
  have ends : ¬ interfaceFiles.Raises a := by
    rintro (named | ⟨_, found, bad⟩ | ⟨_, _, _, _, noJson, _, _, _⟩)
    · cases named
    · cases found
      cases bad
    · cases noJson
  obtain ⟨code, out, err, files, finished⟩ := (execute_ends accepted writable).1.mpr ends
  obtain ⟨range, accounts⟩ := (execute_ends accepted writable).2 code out err files finished
  exact ⟨accepted, writable, code, out, err, files, finished, range, accounts rfl⟩

/-- a source that is missing leaves a value with neither warnings nor classes, and with a source that spells no text
the run does not end with a code -/
theorem execute_missing_undecodable :
    (∃ out members, Arguments.ofList ["--json", "a.d.ts"] = .ok ⟨.ofText "a.d.ts", 0, true, none⟩ ∧
      (⟨[]⟩ : FileSystem).execute ["--json", "a.d.ts"] = .finished 1 out [] ⟨[]⟩ ∧
      Json.decode? out = some (.object members) ∧ members.map Prod.fst = ["exit_code", "diagnostics"]) ∧
    Arguments.ofList ["a.d.ts"] = .ok ⟨.ofText "a.d.ts", 0, false, none⟩ ∧
      (⟨[(["a.d.ts"], [0xFF])]⟩ : FileSystem).execute ["a.d.ts"] = .undecodable := by
  have accepted : Arguments.ofList ["--json", "a.d.ts"] = .ok ⟨.ofText "a.d.ts", 0, true, none⟩ := by
    show (Request.consume {} [.option .json true none, .operand "a.d.ts"] >>= _) = _
    rw [Request.consume_json]
    rfl
  have accepted' : Arguments.ofList ["a.d.ts"] = .ok ⟨.ofText "a.d.ts", 0, false, none⟩ := rfl
  have missing : (⟨[]⟩ : FileSystem).read (.ofText "a.d.ts") = .error .missing := rfl
  have found : (⟨[(["a.d.ts"], [0xFF])]⟩ : FileSystem).read (.ofText "a.d.ts") = .ok [0xFF] := rfl
  have unpaired : (summary 1 [unreadable (Path.ofText "a.d.ts").toText .missing]).Unpaired :=
    Json.unpaired_of_texts (by decide)
  have shown : (summary 1 [unreadable (Path.ofText "a.d.ts").toText .missing]).Shown _ :=
    ⟨.line, Json.Layout.line_spaced, rfl⟩
  exact ⟨⟨_, _, accepted, execute_of_unreadable accepted rfl rfl missing, shown.decode? unpaired, rfl⟩, accepted',
    execute_of_undecodable accepted' rfl found rfl⟩

end FileSystem

end Typings
