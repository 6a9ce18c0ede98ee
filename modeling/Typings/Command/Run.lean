import Typings.Command.Arguments
import Typings.Files.Basic
import Typings.Json.Print
import Typings.Model.Print
import Typings.Report.Convert
/-!
# The command

The command reads one source, converts it, and delivers the classes as a listing or, together with
all diagnostics, as a structured value: in a file if one is named, else on the output.

* `convertFile`           the conversion of the source at a path;
* `Command.report`        what is said and delivered for a source that could be read, or could not;
* `Command.run`           the same for a list of arguments;
* `FileSystem.execute`    the run of the command among files.

Three things are assumed of what a run stands in.  The output and the remarks take any text, code points that are
surrogates included, and only a file has to be encoded.  Texts may be nested as deep as they like, since neither
reading nor printing runs out of room.  The files are those below the working directory.
-/

namespace Typings

/-! ## Conversion of a file -/

/-- why the text of a source is not known -/
inductive SourceFault where
  | path (fault : PathFault)
  | file (fault : FileFault)
  | undecodable
deriving DecidableEq

/-- the text that bytes spell, with every line end a line feed -/
def sourceText? (bytes : List UInt8) : Option Text := (Utf8.decode? bytes).map Text.unifyLineEnds

/-- the conversion of the source at a path; it is called by the path unless options are given -/
def convertFile (fs : FileSystem) (path : Path) (o : Option Options) :
    Except SourceFault Conversion :=
  match path.fault? with
  | some fault => .error (.path fault)
  | none =>
    match fs.read path with
    | .error fault => .error (.file fault)
    | .ok bytes =>
      match sourceText? bytes with
      | none => .error .undecodable
      | some t => .ok (convert (o.getD { filename := path.toText }) t)

namespace Command

/-! ## Reports -/

/-- what a run says, and what it leaves in a file -/
structure Report where
  code : Nat
  out : Text := []
  err : Text := []
  /-- where to write to, and the text to write -/
  delivery : Option (Target × Text) := none
deriving DecidableEq

def unreadable (file : Text) (fault : FileFault) : Diagnostic where
  message := "cannot read source: " ++ fault.reason
  phase := some "io"
  span := { file := some file }

def warned (file : Text) (w : Warning) : Diagnostic where
  message := w.message
  severity := "warning"
  phase := some "convert"
  span := { file := some file }

def reportUnreadable (a : Arguments) (fault : FileFault) : Report :=
  let d := unreadable a.source.toText fault
  if a.json then
    { code := 1,
      out := Conversion.lines [
        (Json.object [("exit_code", .int 1), ("diagnostics", .array [d.toJson])]).print] }
  else { code := 1, err := Conversion.lines [d.format] }

/-- the code for diagnostics: one if there is an error -/
def exitCode (ds : List Diagnostic) : Nat := if ds.any Diagnostic.isError then 1 else 0

/-- all diagnostics of a conversion: its own and those for its warnings -/
def diagnostics (file : Text) (c : Conversion) : List Diagnostic :=
  c.diagnostics ++ c.lowered.warnings.map (warned file)

/-- code, diagnostics, warnings and classes as one structured value -/
def payload (file : Text) (c : Conversion) : Json :=
  .object [
    ("exit_code", .int (exitCode c.diagnostics)),
    ("diagnostics", .array ((diagnostics file c).map Diagnostic.toJson)),
    ("warnings", .array (c.lowered.warnings.map fun w => .text w.message)),
    ("classes", .array (c.lowered.classes.map Class.toJson))]

def product (a : Arguments) (file : Text) (c : Conversion) : Text :=
  if a.json then (payload file c).printIndented else Class.listing c.lowered.classes

/-- a text and a line feed behind it, nothing for the empty text -/
def line (t : Text) : Text := if t.isEmpty then [] else t ++ Text.ofString "\n"

def reportText (a : Arguments) (source : Text) : Report :=
  let file := a.source.toText
  let c := convert { verbosity := a.verbosity, filename := file } source
  let err := Conversion.lines (c.outline ++
    if a.json then [] else (diagnostics file c).map Diagnostic.format)
  let product := product a file c
  if exitCode c.diagnostics = 0 then
    match a.output with
    | none => { code := 0, out := line product, err }
    | some target => { code := 0, err, delivery := some (target, line product) }
  else { code := 1, out := if a.json then product ++ Text.ofString "\n" else [], err }

/-! ## Runs -/

/-- how a run ends before any file is written -/
inductive Outcome where
  /-- the arguments ask for help, or for nothing that can be done -/
  | stopped (code : Nat) (out err : Text)
  | reported (r : Report)
  | unnameable (fault : PathFault)
  | undecodable
deriving DecidableEq

/-- the end of a run whose arguments stop it -/
def stopped (s : Stop) : Outcome :=
  match s.message? with
  | none => .stopped 0 Stop.helpText []
  | some message =>
    .stopped 2 [] (Stop.usage ++ Text.ofString "dtsir: error: " ++ message ++ Text.ofString "\n")

/-- the end of a run for what is at the path of the source -/
def report (a : Arguments) : Except FileFault (List UInt8) → Outcome
  | .error fault => .reported (reportUnreadable a fault)
  | .ok bytes =>
    match sourceText? bytes with
    | none => .undecodable
    | some t => .reported (reportText a t)

/-- a run, given what is at each path -/
def run (read : Path → Except FileFault (List UInt8)) (args : List Text) : Outcome :=
  match Arguments.ofList args with
  | .error s => stopped s
  | .ok a =>
    match a.source.fault? with
    | some fault => .unnameable fault
    | none => report a (read a.source)

end Command

inductive DeliveryFault where
  | nowhere
  | path (fault : PathFault)
  | file (fault : FileFault)
  | unencodable (fault : Utf8.Fault)
deriving DecidableEq

/-- the files after writing a text.  The file is opened, and so emptied, before the text is looked
at. -/
def FileSystem.deliver (fs : FileSystem) (text : Text) : Target → Except DeliveryFault FileSystem
  | .nowhere => .error .nowhere
  | .file path =>
    match path.fault? with
    | some fault => .error (.path fault)
    | none =>
      match fs.write path [] with
      | .error fault => .error (.file fault)
      | .ok emptied =>
        match Utf8.encode text with
        | .error fault => .error (.unencodable fault)
        | .ok bytes => (emptied.write path bytes).mapError .file

inductive Execution where
  | stopped (code : Nat) (out err : Text)
  | finished (code : Nat) (out err : Text) (files : FileSystem)
  | unnameable (fault : PathFault)
  | undecodable
  | undelivered (fault : DeliveryFault)
deriving DecidableEq

def FileSystem.execute (fs : FileSystem) (args : List Text) : Execution :=
  match Command.run fs.read args with
  | .stopped code out err => .stopped code out err
  | .unnameable fault => .unnameable fault
  | .undecodable => .undecodable
  | .reported r =>
    match r.delivery with
    | none => .finished r.code r.out r.err fs
    | some (target, text) =>
      match fs.deliver text target with
      | .ok files => .finished r.code r.out r.err files
      | .error fault => .undelivered fault

end Typings
