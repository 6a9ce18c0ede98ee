import Typings.Text.Utf8
import Typings.Token.Pattern
/-!
# String literals

A string literal is quoted text with escapes.

* `Literal.unescape`      what the code points behind a backslash stand for;
* `Literal.decodeBody`    the value of the text between the quotes;
* `Literal.decode`        the value of a literal, or the fault in it;
* `BadLiteral.reason?`    the fault in words.

A backslash with a code point that begins no escape stands for both; with a line end it stands for
nothing, and the literal goes on in the next line.  Every line end counts as a line feed.  Places of
faulty escapes are counted in the form in which every code point outside ASCII is written as an
escape of ten characters.

The names of code points are not part of this: an escape by name is faulty whatever the name is, also
if Unicode has a code point of that name.  A literal with such a name is outside of what is described
here.
-/

namespace Typings

inductive EscapeFault where
  | shortHex2
  | shortHex4
  | shortHex8
  | aboveUnicode
  | malformedName
  | unknownName
deriving DecidableEq

inductive BadLiteral where
  /-- code points that cannot be written down -/
  | unencodable (fault : Utf8.Fault)
  | nul
  /-- a line end before the closing quote, in this line of the literal -/
  | unterminated (line : Nat)
  /-- a faulty escape from the first to the last place, in a literal that ends in this line -/
  | escape (line first last : Nat) (fault : EscapeFault)
  /-- no quoted text at all -/
  | notText
deriving DecidableEq

namespace Literal

/-! ## Widths -/

/-- the width of a code point outside an escape -/
def width (x : CodePoint) : Nat := if x.toNat < 128 then 1 else 10

/-- the width of a text; a backslash in front of a code point outside ASCII is written as an escape
of six characters -/
def widthOf : Text → Nat
  | [] => 0
  | .scalar '\\' :: y :: t => (if y.toNat < 128 then 2 else 16) + widthOf t
  | x :: t => width x + widthOf t

/-! ## Escapes -/

def hexValue (x : CodePoint) : Nat :=
  match x with
  | .scalar c =>
    if c.isDigit then c.toNat - 48
    else if 'a' ≤ c ∧ c ≤ 'f' then c.toNat - 87
    else if 'A' ≤ c ∧ c ≤ 'F' then c.toNat - 55
    else 0
  | .surrogate _ => 0

def hexNumber (digits : Text) : Nat := digits.foldl (fun n x => 16 * n + hexValue x) 0

def octalValue? : CodePoint → Option Nat
  | .scalar c => if '0' ≤ c ∧ c ≤ '7' then some (c.toNat - 48) else none
  | .surrogate _ => none

/-- what stands behind a backslash: a value, its width and the rest, or a fault and its width -/
inductive Escape where
  | value (value : Text) (width : Nat) (rest : Text)
  | fault (fault : EscapeFault) (width : Nat)
deriving DecidableEq

/-- exactly `count` hexadecimal digits behind a letter -/
def hexEscape (count : Nat) (short : EscapeFault) (t : Text) : Escape :=
  let digits := (t.take count).takeWhile CodePoint.isHexDigit
  if digits.length = count then
    match CodePoint.ofNat? (hexNumber digits) with
    | some x => .value [x] (count + 1) (t.drop count)
    | none => .fault .aboveUnicode (count + 1)
  else .fault short (digits.length + 1)

/-- a name in braces behind the letter `N`.  There is no table of names: each of them counts as unknown. -/
def nameEscape : Text → Escape
  | .scalar '{' :: t =>
    let name := t.takeWhile (· ≠ .scalar '}')
    if name.length = t.length then .fault .malformedName (2 + widthOf name)
    else if name.isEmpty then .fault .malformedName 2
    else .fault .unknownName (3 + widthOf name)
  | _ => .fault .malformedName 1

/-- up to two more octal digits behind the first one -/
def octalEscape (first : Nat) : Text → Escape
  | [] => .value [.scalar (Char.ofNat first)] 1 []
  | x :: t =>
    match octalValue? x with
    | none => .value [.scalar (Char.ofNat first)] 1 (x :: t)
    | some second =>
      match t with
      | [] => .value [.scalar (Char.ofNat (8 * first + second))] 2 []
      | y :: t =>
        match octalValue? y with
        | none => .value [.scalar (Char.ofNat (8 * first + second))] 2 (y :: t)
        | some third => .value [.scalar (Char.ofNat (64 * first + 8 * second + third))] 3 t

/-- the one code point that a letter or sign behind a backslash stands for -/
def simple? : Char → Option Char
  | '\\' => some '\\'
  | '\'' => some '\''
  | '"' => some '"'
  | 'a' => some '\x07'
  | 'b' => some '\x08'
  | 'f' => some '\x0c'
  | 'n' => some '\n'
  | 'r' => some '\r'
  | 't' => some '\t'
  | 'v' => some '\x0b'
  | _ => none

/-- what the code points behind a backslash stand for -/
def unescape : Text → Escape
  | [] => .value ['\\'] 0 []
  | .surrogate n :: t => .value ['\\', .surrogate n] 15 t
  | .scalar c :: t =>
    match simple? c with
    | some v => .value [.scalar v] 1 t
    | none =>
      match octalValue? c with
      | some first => octalEscape first t
      | none =>
        if c = 'x' then hexEscape 2 .shortHex2 t
        else if c = 'u' then hexEscape 4 .shortHex4 t
        else if c = 'U' then hexEscape 8 .shortHex8 t
        else if c = 'N' then nameEscape t
        else if c = '\n' then .value [] 1 t
        else .value ['\\', .scalar c] (if c.toNat < 128 then 1 else 15) t

/-! ## Literals -/

/-- the value of the text between the quotes, from an offset on, `fuel` pieces at most -/
def decodeWithin (line : Nat) : Nat → Nat → Text → Except BadLiteral Text
  | 0, _, _ => .ok []
  | _, _, [] => .ok []
  | fuel + 1, offset, .scalar '\\' :: t =>
    match unescape t with
    | .fault why width => .error (.escape line offset (offset + width) why)
    | .value v width rest => (decodeWithin line fuel (offset + 1 + width) rest).map (v ++ ·)
  | fuel + 1, offset, x :: t => (decodeWithin line fuel (offset + width x) t).map (x :: ·)

/-- the line in which a text ends that begins in the given line; only a line end behind a backslash
leads to the next line -/
def lastLine (line : Nat) : Text → Nat
  | [] => line
  | .scalar '\\' :: y :: t => lastLine (if y = .scalar '\n' then line + 1 else line) t
  | _ :: t => lastLine line t

/-- the line of the first line end that is not behind a backslash -/
def bareLineEnd? (line : Nat) : Text → Option Nat
  | [] => none
  | .scalar '\\' :: y :: t => bareLineEnd? (if y = .scalar '\n' then line + 1 else line) t
  | x :: t => if x = .scalar '\n' then some line else bareLineEnd? line t

def decodeBody (body : Text) : Except BadLiteral Text :=
  decodeWithin (lastLine 1 body) body.length 0 body

/-- the text up to the closing quote, and the rest behind it; a backslash takes the next code point
with it -/
def closed? (quote : Char) : Text → Option (Text × Text)
  | [] => none
  | .scalar '\\' :: y :: t => (closed? quote t).map fun p => ('\\' :: y :: p.1, p.2)
  | x :: t =>
    if x = quote then some ([], t) else (closed? quote t).map fun p => (x :: p.1, p.2)

/-- the value of a literal behind its opening quote.  A literal without a closing quote ends at a line
end, or else in the line of its last code point. -/
def decodeQuoted (quote : Char) (t : Text) : Except BadLiteral Text :=
  match closed? quote t with
  | none => .error (.unterminated ((bareLineEnd? 1 t).getD (lastLine 1 t.dropLast)))
  | some (body, rest) =>
    match bareLineEnd? 1 body with
    | some line => .error (.unterminated line)
    | none => if rest.isEmpty then decodeBody body else .error .notText

/-- the value of a literal, or the first fault in it: that it cannot be written down, that it holds
a code point zero, that it does not end on its line, a faulty escape -/
def decode (t : Text) : Except BadLiteral Text :=
  match Utf8.encode t with
  | .error fault => .error (.unencodable fault)
  | .ok _ =>
    if t.contains '\x00' then .error .nul
    else match t.unifyLineEnds with
      | .scalar c :: rest =>
        if c = '"' ∨ c = '\'' then decodeQuoted c rest else .error .notText
      | _ => .error .notText

end Literal

namespace EscapeFault

def reason : EscapeFault → String
  | shortHex2 => "truncated \\xXX escape"
  | shortHex4 => "truncated \\uXXXX escape"
  | shortHex8 => "truncated \\UXXXXXXXX escape"
  | aboveUnicode => "illegal Unicode character"
  | malformedName => "malformed \\N character escape"
  | unknownName => "unknown Unicode character name"

end EscapeFault

namespace BadLiteral

/-- the fault in words; none if there is no text to find fault with -/
def reason? : BadLiteral → Option Text
  | unencodable fault => some fault.message
  | nul => some "source code string cannot contain null bytes"
  | unterminated line =>
    some ("unterminated string literal (detected at line " ++ Text.ofNat line ++
      ") (<unknown>, line 1)")
  | escape line first last fault =>
    some ("(unicode error) 'unicodeescape' codec can't decode bytes in position " ++
      Text.ofNat first ++ "-" ++ Text.ofNat last ++ ": " ++ fault.reason ++ " (<unknown>, line " ++
      Text.ofNat line ++ ")")
  | notText => none

end BadLiteral

end Typings
