import Typings.Command.Run
/-!
# The program

Reads the one file that the arguments name, runs the command on it, and carries out its report.
-/

namespace Typings.Main

/-- the string of a text; a surrogate, which no output can hold, is shown as a question mark -/
def display (t : Text) : String :=
  String.ofList (t.map fun x => match x with
    | .scalar c => c
    | .surrogate _ => '?')

/-- the fault behind a failure to open a file -/
def fault : IO.Error → FileFault
  | .noFileOrDirectory .. => .missing
  | .inappropriateType .. => .isDirectory
  | e => .other (Text.ofString (toString e))

/-- the bytes at a path -/
def read (path : Path) : IO (Except FileFault (List UInt8)) := do
  try
    let bytes ← IO.FS.readBinFile (display path.toText)
    return .ok bytes.toList
  catch e => return .error (fault e)

/-- say what a run says -/
def say (out err : Text) : IO Unit := do
  (← IO.getStderr).putStr (display err)
  (← IO.getStdout).putStr (display out)

end Typings.Main

open Typings in
/-- the program -/
def main (args : List String) : IO UInt32 := do
  let args := args.map Text.ofString
  let found ← match Arguments.ofList args with
    | .ok a => Main.read a.source
    | .error _ => pure (.error .missing)
  match Command.run (fun _ => found) args with
  | .stopped code out err => do
    Main.say out err
    return UInt32.ofNat code
  | .unnameable fault => throw (IO.userError (Main.display fault.message))
  | .undecodable => throw (IO.userError "the source is not UTF-8")
  | .reported r => do
    Main.say r.out r.err
    match r.delivery with
    | none => return UInt32.ofNat r.code
    | some (.nowhere, _) => throw (IO.userError "there is no file to write to")
    | some (.file path, text) =>
      match Utf8.encode text with
      | .error fault => throw (IO.userError (Main.display fault.message))
      | .ok bytes => do
        IO.FS.writeBinFile (Main.display path.toText) (ByteArray.mk bytes.toArray)
        return UInt32.ofNat r.code
