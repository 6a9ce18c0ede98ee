import Typings.Grammar.Terminal
import Typings.Text.Position
import Typings.Token.Pattern
/-!
# Tokens

* `Token`                a piece of text, its class and the place where it starts;
* `Token.read?`          the token at the front of a text when only some classes may come;
* `Token.readAny?`       the same when every class may come.

Where a name may come, a word is always taken whole: it is a keyword if it is one of those that may
come, and a name otherwise.  Where no name may come, keywords are taken as they are spelled, even
from the front of a longer word.
-/

namespace Typings

/-- a piece of the text with its class and the place of its first code point -/
structure Token where
  kind : Terminal
  text : Text
  start : Cursor
deriving DecidableEq, Inhabited

namespace Terminal

/-- the terminal is a keyword with this spelling -/
def isWord (word : Text) (t : Terminal) : Bool :=
  t.isKeyword && (t.spelling?.map Text.ofString == some word)

/-- the class of a word where a name may come -/
def ofWord (admitted : Terminal → Bool) (word : Text) : Terminal :=
  (all.find? fun t => admitted t && t.isWord word).getD .NAME

end Terminal

namespace Token

/-- the piece of a class of many texts at the front of a text -/
def classed (admitted : Terminal → Bool) (t : Text) : Option (Terminal × Text × Text) :=
  let words := if admitted .NAME then
    (Pattern.name t).map fun p => (Terminal.ofWord admitted p.1, p) else none
  let strings := if admitted .STRING then (Pattern.quoted t).map fun p => (.STRING, p) else none
  let numerals := if admitted .NUMERAL then (Pattern.numeral t).map fun p => (.NUMERAL, p) else none
  (words.or strings).or numerals

/-- the keyword or punctuation mark at the front of a text, the longest one that may come; no
keyword where a name may come -/
def spelled (admitted : Terminal → Bool) (t : Text) : Option (Terminal × Text × Text) :=
  Terminal.spelled.findSome? fun k =>
    if admitted k && !(k.isKeyword && admitted .NAME) then
      k.spelling?.bind fun s => (Pattern.exactly s t).map fun p => (k, p)
    else none

/-- class, piece and rest of the token at the front of a text, if only the admitted classes may
come -/
def read? (admitted : Terminal → Bool) (t : Text) : Option (Terminal × Text × Text) :=
  (classed admitted t).or (spelled admitted t)

/-- class, piece and rest of the token at the front of a text, whatever may come -/
def readAny? (t : Text) : Option (Terminal × Text × Text) := read? (fun _ => true) t

end Token

end Typings
