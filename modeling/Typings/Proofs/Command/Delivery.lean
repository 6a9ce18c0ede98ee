import Typings.Command.Run
import Typings.Proofs.Files.Writing
import Typings.Proofs.Report.Concatenation
import Typings.Proofs.Report.Conversion
import Typings.Proofs.Text.Utf8
/-!
# All or nothing

A run of the command ends with code one if its source cannot be read or gives no declarations, and then no file
is changed.  Otherwise it delivers the product, a listing of the classes or a structured value, on the output or
in the file that is named, and what else it says does not depend on where the product goes.  All this is about files
below the working directory: a path that leaves it is assumed to lead to no file.

* `FileSystem.Fails`              a source that cannot be read or gives no declarations;
* `Command.reportText_of_ok`      the report on a text that gives declarations;
* `FileSystem.deliver_of_target`  what is delivered into a file;
* `FileSystem.execute_delivers`   the main result.
-/

namespace Typings

/-- the source cannot be read, or its text gives no declarations -/
def FileSystem.Fails (fs : FileSystem) (source : Path) : Prop :=
  (∃ fault, fs.read source = .error fault) ∨
    ∃ bytes t e, fs.read source = .ok bytes ∧ sourceText? bytes = some t ∧ SourceFile.read t = .error e

namespace Command
open Conversion

/-! ## Reports -/

/-- the product for arguments that ask for it, where it does not matter what is said about the conversion -/
theorem product_eq (a : Arguments) {t : Text} {f : SourceFile} (h : SourceFile.read t = .ok f)
    (file : Text) (o o' : Options) : product a file (convert o t) = product a file (convert o' t) := by
  rw [convert_of_ok h, convert_of_ok h]
  rfl

theorem exitCode_of_ok {t : Text} {f : SourceFile} (h : SourceFile.read t = .ok f) (o : Options) :
    exitCode (convert o t).diagnostics = 0 := by
  rw [convert_of_ok h]
  rfl

theorem exitCode_of_error {t : Text} {e : ReadError} (h : SourceFile.read t = .error e) (o : Options) :
    exitCode (convert o t).diagnostics = 1 := by
  rw [convert_of_error h]
  rfl

/-- what is said on the side about a text -/
def remarks (a : Arguments) (t : Text) : Text :=
  let c := convert { verbosity := a.verbosity, filename := a.source.toText } t
  Conversion.lines (c.outline ++
    if a.json then [] else (diagnostics a.source.toText c).map Diagnostic.format)

/-- the report on a text that gives no declarations -/
theorem reportText_of_error (a : Arguments) {t : Text} {e : ReadError} (h : SourceFile.read t = .error e) :
    ∃ out, reportText a t = { code := 1, out, err := remarks a t } ∧ (a.json = false → out = []) := by
  unfold reportText
  simp only [exitCode_of_error h]
  refine ⟨_, rfl, fun noJson => ?_⟩
  rw [noJson]
  rfl

/-- the report on a text that gives declarations -/
theorem reportText_of_ok (a : Arguments) {t : Text} {f : SourceFile} (h : SourceFile.read t = .ok f)
    (o : Options) : reportText a t =
      match a.output with
      | none => { code := 0, out := line (product a a.source.toText (convert o t)), err := remarks a t }
      | some target =>
        { code := 0, err := remarks a t,
          delivery := some (target, line (product a a.source.toText (convert o t))) } := by
  unfold reportText
  simp only [exitCode_of_ok h]
  rw [product_eq a h _ _ o]
  rfl

/-! ## Runs -/

section
variable {read : Path → Except FileFault (List UInt8)} {args : List Text} {a : Arguments}
  (accepted : Arguments.ofList args = .ok a) (nameable : a.source.fault? = none)
include accepted nameable

theorem run_of_fault {fault : FileFault} (h : read a.source = .error fault) :
    run read args = .reported (reportUnreadable a fault) := by
  unfold run
  simp only [accepted, nameable, h]
  rfl

theorem run_of_text {bytes : List UInt8} {t : Text} (h : read a.source = .ok bytes)
    (text : sourceText? bytes = some t) : run read args = .reported (reportText a t) := by
  unfold run report
  simp only [accepted, nameable, h, text]

end

end Command

namespace FileSystem
open Command

/-- a text that has bytes is delivered to where a path leads -/
theorem deliver_of_target {fs : FileSystem} {path : Path} {place : List Text} {text : Text}
    {bytes : List UInt8} (nameable : path.fault? = none) (target : fs.Reaches path place)
    (encoded : Utf8.encode text = .ok bytes) :
    fs.deliver text (.file path) = .ok (fs.put place bytes) := by
  have emptied : (fs.put place []).Reaches path place := by
    rw [Reaches, entry_put [] target]
    rfl
  unfold deliver
  simp only [nameable, write_eq [] target, encoded, write_eq bytes emptied, put_put]
  rfl

/-- a run that has nothing to deliver ends with its report -/
theorem execute_of_report {fs : FileSystem} {args : List Text} {r : Report} (h : run fs.read args = .reported r)
    (stays : r.delivery = none) : fs.execute args = .finished r.code r.out r.err fs := by
  unfold execute
  simp only [h, stays]

/-- a run that can deliver its text ends with its report -/
theorem execute_of_delivery {fs files : FileSystem} {args : List Text} {r : Report} {target : Target} {text : Text}
    (h : run fs.read args = .reported r) (leaves : r.delivery = some (target, text))
    (done : fs.deliver text target = .ok files) : fs.execute args = .finished r.code r.out r.err files := by
  unfold execute
  simp only [h, leaves, done]

section
variable {fs : FileSystem} {args : List Text} {a : Arguments}
  (accepted : Arguments.ofList args = .ok a) (nameable : a.source.fault? = none)
include accepted nameable

/-- a run whose source fails ends with code one -/
theorem execute_of_fails (h : fs.Fails a.source) :
    ∃ out err, fs.execute args = .finished 1 out err fs ∧ (a.json = false → out = []) := by
  rcases h with ⟨fault, found⟩ | ⟨bytes, t, e, found, text, failed⟩
  · have reported := run_of_fault accepted nameable found
    cases json : a.json with
    | false =>
      rw [reportUnreadable, json] at reported
      exact ⟨_, _, execute_of_report reported rfl, fun _ => rfl⟩
    | true =>
      rw [reportUnreadable, json] at reported
      exact ⟨_, _, execute_of_report reported rfl, fun no => nomatch no⟩
  · obtain ⟨out, report, silent⟩ := reportText_of_error a failed
    have reported := run_of_text accepted nameable found text
    rw [report] at reported
    exact ⟨out, _, execute_of_report reported rfl, silent⟩

/-- a run with a source that gives declarations delivers the product on the output, if no file is
named -/
theorem execute_out {bytes : List UInt8} {t : Text} {f : SourceFile} (found : fs.read a.source = .ok bytes)
    (text : sourceText? bytes = some t) (done : SourceFile.read t = .ok f) (o : Options)
    (noFile : a.output = none) : fs.execute args =
      .finished 0 (line (product a a.source.toText (convert o t))) (remarks a t) fs := by
  have reported := run_of_text accepted nameable found text
  rw [reportText_of_ok a done o, noFile] at reported
  exact execute_of_report reported rfl

/-- and else in the file that is named -/
theorem execute_file {bytes written : List UInt8} {t : Text} {f : SourceFile}
    (found : fs.read a.source = .ok bytes) (text : sourceText? bytes = some t)
    (done : SourceFile.read t = .ok f) (o : Options) {path : Path} (toFile : a.output = some (.file path))
    (pathNameable : path.fault? = none) {place : List Text} (target : fs.Reaches path place)
    (encoded : Utf8.encode (line (product a a.source.toText (convert o t))) = .ok written) :
    fs.execute args = .finished 0 [] (remarks a t) (fs.put place written) := by
  have reported := run_of_text accepted nameable found text
  rw [reportText_of_ok a done o, toFile] at reported
  exact execute_of_delivery reported rfl (deliver_of_target pathNameable target encoded)

/-- a run with a source that gives declarations does not end with code one -/
theorem code_of_ok {bytes : List UInt8} {t : Text} {f : SourceFile} (found : fs.read a.source = .ok bytes)
    (text : sourceText? bytes = some t) (done : SourceFile.read t = .ok f) {code : Nat} {out err : Text}
    {files : FileSystem} (h : fs.execute args = .finished code out err files) : code = 0 := by
  unfold execute at h
  rw [run_of_text accepted nameable found text, reportText_of_ok a done {}] at h
  cases output : a.output with
  | none =>
    rw [output] at h
    cases h
    rfl
  | some target =>
    rw [output] at h
    dsimp only at h
    split at h <;> cases h
    rfl

end

/-- a source that is there as a text and does not fail gives declarations -/
theorem exists_of_not_fails {fs : FileSystem} {source : Path} (h : ¬ fs.Fails source)
    (spelled : ∀ bytes, fs.read source = .ok bytes → ∃ t, Utf8.decode? bytes = some t) :
    ∃ bytes t f, fs.read source = .ok bytes ∧ sourceText? bytes = some t ∧ SourceFile.read t = .ok f := by
  cases found : fs.read source with
  | error fault => exact absurd (.inl ⟨fault, found⟩) h
  | ok bytes =>
    obtain ⟨t, decoded⟩ := spelled bytes found
    have text : sourceText? bytes = some t.unifyLineEnds := by rw [sourceText?, decoded, Option.map_some]
    cases done : SourceFile.read t.unifyLineEnds with
    | error e => exact absurd (.inr ⟨bytes, _, e, found, text, done⟩) h
    | ok f => exact ⟨bytes, _, f, rfl, text, done⟩

theorem line_scalar {t : Text} (h : ∀ x ∈ t, x.isSurrogate = false) :
    ∀ x ∈ line t, x.isSurrogate = false := by
  unfold line
  split
  · exact fun _ mem => nomatch mem
  · exact List.forall_mem_append.mpr ⟨h, by decide⟩

/-- **A run whose source has a name, and is missing or spells a text, ends with code one if and only if the
source cannot be read or gives no declarations.  Then no file is changed, and nothing is on the output unless a structured
value is asked for.  Any other run delivers the listing of the classes or the structured value: on the output, or
in a file that can be written, where it stands in place of what was there; no other file is changed then, and the
remarks are those of a run without such a file.**  It is assumed that the files are those below the working
directory (`entryOutside`), and that the output and the remarks take any text. -/
theorem execute_delivers {fs : FileSystem} {args : List Text} {a : Arguments}
    (accepted : Arguments.ofList args = .ok a) (nameable : a.source.fault? = none)
    (spelled : ∀ bytes, fs.read a.source = .ok bytes → ∃ t, Utf8.decode? bytes = some t) :
    ((∃ out err files, fs.execute args = .finished 1 out err files) ↔ fs.Fails a.source) ∧
    (∀ out err files, fs.execute args = .finished 1 out err files →
      files = fs ∧ (a.json = false → out = [])) ∧
    (¬ fs.Fails a.source → ∃ bytes t, fs.read a.source = .ok bytes ∧ sourceText? bytes = some t ∧
      ∀ o : Options,
        let text : Text :=
          if a.json then (payload a.source.toText (convert o t)).printIndented
          else Class.listing (convert o t).lowered.classes
        (a.output = none → ∃ err, fs.execute args = .finished 0 (line text) err fs) ∧
        ∀ path, a.output = some (.file path) → path.fault? = none →
          (∃ files, fs.write path [] = .ok files) → (∀ x ∈ text, x.isSurrogate = false) →
          ∃ err files place written, fs.execute args = .finished 0 [] err files ∧
            files.entry path = .file place written ∧ Utf8.decode? written = some (line text) ∧
            (∀ other ≠ place, files.files.lookup other = fs.files.lookup other) ∧
            ∀ args', Arguments.ofList args' = .ok { a with output := none } →
              ∃ out, fs.execute args' = .finished 0 out err fs) := by
  have failing : fs.Fails a.source → _ := execute_of_fails accepted nameable
  refine ⟨⟨?_, ?_⟩, ?_, fun works => ?_⟩
  · rintro ⟨out, err, files, finished⟩
    by_contra works
    obtain ⟨bytes, t, f, found, text, done⟩ := exists_of_not_fails works spelled
    cases code_of_ok accepted nameable found text done finished
  · intro fails
    obtain ⟨out, err, finished, _⟩ := failing fails
    exact ⟨out, err, fs, finished⟩
  · intro out err files finished
    by_cases fails : fs.Fails a.source
    · obtain ⟨out', err', finished', silent⟩ := failing fails
      rw [finished] at finished'
      cases finished'
      exact ⟨rfl, silent⟩
    · obtain ⟨bytes, t, f, found, text, done⟩ := exists_of_not_fails fails spelled
      cases code_of_ok accepted nameable found text done finished
  · obtain ⟨bytes, t, f, found, text, done⟩ := exists_of_not_fails works spelled
    refine ⟨bytes, t, found, text, fun o => ⟨fun noFile => ?_, ?_⟩⟩
    · exact ⟨_, execute_out accepted nameable found text done o noFile⟩
    · rintro path toFile pathNameable ⟨_, opened⟩ scalar
      obtain ⟨place, target⟩ := exists_target_of_write opened
      obtain ⟨written, encoded⟩ := Utf8.exists_encode (line_scalar scalar)
      refine ⟨remarks a t, fs.put place written, place, written,
        execute_file accepted nameable found text done o toFile pathNameable target encoded,
        entry_put written target, Utf8.decode?_of_encode encoded,
        fun other ne => lookup_put_ne fs place written ne, fun args' accepted' => ?_⟩
      exact ⟨_, execute_out accepted' nameable found text done o rfl⟩

/-- a source that no file can be asked for by cannot be read, but the run does not come to an end with a
code -/
theorem execute_nul :
    let fs : FileSystem := ⟨[]⟩
    ∃ a, Arguments.ofList ["a\x00b"] = .ok a ∧ fs.read a.source = .error .missing ∧ fs.Fails a.source ∧
      ¬ ∃ out err files, fs.execute ["a\x00b"] = .finished 1 out err files := by
  intro fs
  have missing : fs.read (.ofText "a\x00b") = .error .missing := by rfl
  have raised : fs.execute ["a\x00b"] = .unnameable .nul := by decide
  refine ⟨⟨.ofText "a\x00b", 0, false, none⟩, by decide, missing, .inl ⟨_, missing⟩, ?_⟩
  rintro ⟨out, err, files, finished⟩
  rw [raised] at finished
  cases finished

/-- an interface in one file, and something else in another -/
def interfaceFiles : FileSystem := ⟨[
  (["a.d.ts"], [105, 110, 116, 101, 114, 102, 97, 99, 101, 32, 65, 32, 123, 125]), (["out"], [33])]⟩

/-- the interface as the source, and the other file as the output -/
def interfaceArguments : Arguments := ⟨.ofText "a.d.ts", 0, false, some (.file (.ofText "out"))⟩

theorem execute_delivers_interface :
    ∃ err files place written,
      interfaceFiles.execute ["-o", "out", "a.d.ts"] = .finished 0 [] err files ∧
        files.entry (.ofText "out") = .file place written ∧
          Utf8.decode? written = some (Text.ofString "interface A\n") := by
  have accepted : Arguments.ofList ["-o", "out", "a.d.ts"] = .ok interfaceArguments := by decide +kernel
  have nameable : interfaceArguments.source.fault? = none := by decide
  have text : sourceText? [105, 110, 116, 101, 114, 102, 97, 99, 101, 32, 65, 32, 123, 125] =
      some (Text.ofString "interface A \x7b\x7d") := by decide
  have found : interfaceFiles.read interfaceArguments.source =
      .ok [105, 110, 116, 101, 114, 102, 97, 99, 101, 32, 65, 32, 123, 125] := by decide
  have spelled : ∀ b, interfaceFiles.read interfaceArguments.source = .ok b →
      ∃ t, Utf8.decode? b = some t := by
    intro b h
    rw [found] at h
    cases h
    exact ⟨"interface A \x7b\x7d", by decide⟩
  have works : ¬ interfaceFiles.Fails interfaceArguments.source := by
    rintro (⟨fault, h⟩ | ⟨b, t, e, h, text', failed⟩)
    · rw [found] at h
      cases h
    · rw [found] at h
      cases h
      rw [text] at text'
      cases text'
      rw [SourceFile.read_interfaceA] at failed
      cases failed
  obtain ⟨b, t, found', text', delivered⟩ := (execute_delivers accepted nameable spelled).2.2 works
  rw [found] at found'
  cases found'
  rw [text] at text'
  cases text'
  have listing : Class.listing (convert {} "interface A \x7b\x7d").lowered.classes =
      Text.ofString "interface A" := by
    rw [SourceFile.lowered_convert SourceFile.read_interfaceA]
    decide
  have opened : ∃ files, interfaceFiles.write (.ofText "out") [] = .ok files :=
    ⟨_, write_eq [] (show interfaceFiles.Reaches (.ofText "out") ["out"] from by
      rw [Reaches, show interfaceFiles.entry (.ofText "out") = .file ["out"] [33] by decide]
      rfl)⟩
  have delivered := (delivered {}).2
  simp only [show interfaceArguments.json = false from rfl, Bool.false_eq_true, if_false, listing]
    at delivered
  obtain ⟨err, files, place, written, finished, entry, decoded, _⟩ :=
    delivered (.ofText "out") rfl (by decide) opened (by decide)
  exact ⟨err, files, place, written, finished, entry, decoded⟩

end FileSystem

end Typings
