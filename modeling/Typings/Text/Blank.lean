import Typings.Text.CodePoint
/-!
# White space

* `CodePoint.isSpace`     white space of any script: the separators that print as a gap and the
                          control characters that move to another place;
* `Text.trimStart`        a text without the white space at its front.
-/

namespace Typings

/-- white space of any script -/
def CodePoint.isSpace (x : CodePoint) : Bool :=
  let n := x.toNat
  (0x09 ≤ n && n ≤ 0x0D) || (0x1C ≤ n && n ≤ 0x20) || n == 0x85 || n == 0xA0 || n == 0x1680 ||
    (0x2000 ≤ n && n ≤ 0x200A) || n == 0x2028 || n == 0x2029 || n == 0x202F || n == 0x205F ||
    n == 0x3000

/-- a text without the white space at its front -/
def Text.trimStart (t : Text) : Text := t.dropWhile CodePoint.isSpace

end Typings
