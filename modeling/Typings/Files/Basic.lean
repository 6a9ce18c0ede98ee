import Typings.Files.Path
import Typings.Text.Utf8
/-!
# Files

The files below a working directory.

* `FileFault`              why a file cannot be opened;
* `FileSystem`             the files with their bytes;
* `FileSystem.entry`       what stands at a path;
* `FileSystem.read`        the bytes at a path;
* `FileSystem.write`       the files after writing bytes to a path.

A directory exists if a file stands somewhere below it.  A path is followed segment by segment, so the
first segment that is too long, missing or no directory decides; a path that is too long as a whole is
not followed at all.

The place of the working directory is not known, nor what stands outside of it.  It is assumed that an absolute
path, or one that leaves the working directory, leads to a directory if it goes nowhere but up, and to nothing
otherwise: to no file, and not back into the working directory.
-/

namespace Typings

/-- why a file cannot be opened -/
inductive FileFault where
  | missing
  | isDirectory
  | notDirectory
  | nameTooLong
  | other (reason : Text)
deriving DecidableEq

/-- the fault in words -/
def FileFault.reason : FileFault → Text
  | missing => "No such file or directory"
  | isDirectory => "Is a directory"
  | notDirectory => "Not a directory"
  | nameTooLong => "File name too long"
  | other reason => reason

/-- the files below the working directory: segments and bytes -/
structure FileSystem where
  files : List (List Text × List UInt8)
deriving DecidableEq, Inhabited

namespace FileSystem

/-- what stands at a path -/
inductive Entry where
  | file (segments : List Text) (bytes : List UInt8)
  | directory
  /-- nothing, but it could stand in a directory at these segments -/
  | free (segments : List Text)
  | missing
  | notDirectory
  | nameTooLong
deriving DecidableEq

/-- the most bytes that a segment may have -/
def segmentLimit : Nat := 255

/-- the most bytes that a path may have -/
def pathLimit : Nat := 4095

/-- the segment has too many bytes -/
def isTooLong (s : Text) : Bool := segmentLimit < Path.nameWidth s

/-- a file stands below these segments, or they are the working directory itself -/
def isDirectory (fs : FileSystem) (segments : List Text) : Bool :=
  segments.isEmpty || fs.files.any fun f => segments.isPrefixOf f.1 && segments != f.1

/-- what stands at segments, seen from a directory outside of the working directory, where nothing is assumed to
stand -/
def entryOutside (segments : List Text) : Entry :=
  match segments.find? (· ≠ (".." : Text)) with
  | none => .directory
  | some s => if isTooLong s then .nameTooLong else .missing

/-- what stands at segments, seen from a directory -/
def entryFrom (fs : FileSystem) (here : List Text) : List Text → Entry
  | [] => .directory
  | s :: rest =>
    if s = (".." : Text) then
      if here.isEmpty then entryOutside rest else entryFrom fs here.dropLast rest
    else if isTooLong s then .nameTooLong
    else
      match fs.files.lookup (here ++ [s]) with
      | some bytes => if rest.isEmpty then .file (here ++ [s]) bytes else .notDirectory
      | none =>
        if fs.isDirectory (here ++ [s]) then entryFrom fs (here ++ [s]) rest
        else if rest.isEmpty then .free (here ++ [s]) else .missing

/-- what stands at a path -/
def entry (fs : FileSystem) (p : Path) : Entry :=
  if pathLimit < p.width then .nameTooLong
  else if p.root.isEmpty then entryFrom fs [] p.segments
  else entryOutside p.segments

/-- the bytes at a path -/
def read (fs : FileSystem) (p : Path) : Except FileFault (List UInt8) :=
  match fs.entry p with
  | .file _ bytes => .ok bytes
  | .directory => .error .isDirectory
  | .free _ | .missing => .error .missing
  | .notDirectory => .error .notDirectory
  | .nameTooLong => .error .nameTooLong

/-- the files with other bytes at segments -/
def put (fs : FileSystem) (segments : List Text) (bytes : List UInt8) : FileSystem :=
  ⟨(segments, bytes) :: fs.files.filter fun f => f.1 ≠ segments⟩

/-- the files after writing bytes to a path -/
def write (fs : FileSystem) (p : Path) (bytes : List UInt8) : Except FileFault FileSystem :=
  match fs.entry p with
  | .file segments _ | .free segments => .ok (fs.put segments bytes)
  | .directory => .error .isDirectory
  | .missing => .error .missing
  | .notDirectory => .error .notDirectory
  | .nameTooLong => .error .nameTooLong

end FileSystem

end Typings
