import Typings.Json.Value
import Typings.Text.Quoted
/-!
# Structured values as text

* `Json.string`          a text in quotes, in ASCII;
* `Json.Layout`          how the parts of an array or object are set apart;
* `Json.print`           a value on one line;
* `Json.printIndented`   a value with every part on a line of its own, two columns further in.

A code point above U+FFFF is written as two escapes, one for each half of its pair of surrogates.
-/

namespace Typings.Json

def escapeUnit (n : Nat) : Text := '\\' :: 'u' :: Quoted.hexDigits 4 n

def escape (x : CodePoint) : Text :=
  if x = '"' then ['\\', '"']
  else if x = '\\' then ['\\', '\\']
  else if x = '\n' then ['\\', 'n']
  else if x = '\r' then ['\\', 'r']
  else if x = '\t' then ['\\', 't']
  else if x = '\x0c' then ['\\', 'f']
  else if x = '\x08' then ['\\', 'b']
  else if 0x20 ≤ x.toNat ∧ x.toNat < 0x7F then [x]
  else if x.toNat < 0x10000 then escapeUnit x.toNat
  else escapeUnit (0xD800 + (x.toNat - 0x10000) / 0x400) ++
    escapeUnit (0xDC00 + (x.toNat - 0x10000) % 0x400)

def string (t : Text) : Text := .scalar '"' :: t.flatMap escape ++ [.scalar '"']

/-- how the parts of an array or object are set apart: the text before the first part, between two
parts, and behind the last, each for the depth of the array or object -/
structure Layout where
  opening : Nat → Text
  between : Nat → Text
  closing : Nat → Text

def Layout.line : Layout := ⟨fun _ => [], fun _ => ", ", fun _ => []⟩

/-- a line end and two blanks for each level -/
def Layout.newline (depth : Nat) : Text := '\n' :: List.replicate (2 * depth) (.scalar ' ')

def Layout.indented : Layout where
  opening depth := newline (depth + 1)
  between depth := ',' :: newline (depth + 1)
  closing depth := newline depth

mutual

def printAt (l : Layout) (depth : Nat) : Json → Text
  | null => "null"
  | bool b => if b then "true" else "false"
  | int n => Text.ofInt n
  | text t => string t
  | array [] => "[]"
  | array (item :: items) =>
    "[" ++ l.opening depth ++ printAt l (depth + 1) item ++ printItems l depth items ++
      l.closing depth ++ "]"
  | object [] => "\x7b\x7d"
  | object ((name, value) :: members) =>
    "\x7b" ++ l.opening depth ++ string name ++ ": " ++ printAt l (depth + 1) value ++
      printMembers l depth members ++ l.closing depth ++ "\x7d"

def printItems (l : Layout) (depth : Nat) : List Json → Text
  | [] => []
  | item :: items => l.between depth ++ printAt l (depth + 1) item ++ printItems l depth items

def printMembers (l : Layout) (depth : Nat) : List (Text × Json) → Text
  | [] => []
  | (name, value) :: members =>
    l.between depth ++ string name ++ ": " ++ printAt l (depth + 1) value ++
      printMembers l depth members

end

def print (v : Json) : Text := printAt .line 0 v

def printIndented (v : Json) : Text := printAt .indented 0 v

end Typings.Json
