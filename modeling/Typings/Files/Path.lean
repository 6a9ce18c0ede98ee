import Typings.Text.Utf8
/-!
# Paths

* `Path`              the slashes at the front and the segments;
* `Path.ofText`       the path that a text names, without empty segments and single points;
* `Path.toText`       the path as it is shown;
* `Path.fault?`       why no file can be asked for by the path;
* `Path.width`        the number of bytes that name the path.
-/

namespace Typings

/-- a path: one or two slashes at its front, or none, and its segments -/
structure Path where
  root : Text
  segments : List Text
deriving DecidableEq, Inhabited

namespace Path

/-- the pieces of a text between slashes -/
def pieces : Text → List Text
  | [] => [[]]
  | x :: t =>
    if x = '/' then [] :: pieces t
    else match pieces t with
      | [] => [[x]]
      | piece :: rest => (x :: piece) :: rest

/-- the slashes that count at the front: exactly two stay two, any other number is one -/
def rootOf (t : Text) : Text :=
  match (t.takeWhile (· = .scalar '/')).length with
  | 0 => []
  | 2 => "//"
  | _ => "/"

/-- the path that a text names -/
def ofText (t : Text) : Path where
  root := rootOf t
  segments := (pieces t).filter fun s => s ≠ [] ∧ s ≠ [.scalar '.']

/-- the path as it is shown; a point stands for the empty path -/
def toText (p : Path) : Text :=
  match p.root ++ Text.join "/" p.segments with
  | [] => "."
  | t => t

end Path

/-! ## Names in bytes

A file is asked for by bytes.  In a name, a surrogate from U+DC80 to U+DCFF stands for a single byte
that is no part of UTF-8. -/

/-- the byte that a surrogate stands for -/
def CodePoint.loneByte? (n : Fin 2048) : Option UInt8 :=
  if 0x480 ≤ n.val ∧ n.val < 0x500 then some (UInt8.ofNat (n.val - 0x400)) else none

/-- the number of bytes of a code point in a name -/
def CodePoint.nameWidth : CodePoint → Nat
  | .scalar c => c.utf8Size
  | .surrogate _ => 1

/-- why no file can be asked for by a path -/
inductive PathFault where
  /-- surrogates that stand for no byte -/
  | unencodable (fault : Utf8.Fault)
  /-- a code point zero, which would end the name -/
  | nul
deriving DecidableEq

/-- the fault in words -/
def PathFault.message : PathFault → Text
  | unencodable fault => fault.message
  | nul => "embedded null byte"

namespace Path

/-- why no file can be asked for by the path -/
def fault? (p : Path) : Option PathFault :=
  match Utf8.encodeWith CodePoint.loneByte? 0 p.toText with
  | .error fault => some (.unencodable fault)
  | .ok _ => if p.toText.contains '\x00' then some .nul else none

/-- the number of bytes of a name -/
def nameWidth (t : Text) : Nat := t.foldl (fun n x => n + x.nameWidth) 0

/-- the number of bytes that name the path -/
def width (p : Path) : Nat := nameWidth p.toText

end Path

end Typings
