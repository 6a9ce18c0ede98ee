import Typings.Text.Printable
/-!
# Quoted text

A text on one line between quotes, with every code point that does not print as an escape.

* `Quoted.quoteFor`     double quotes for a text that holds single quotes only, single quotes for
                        any other;
* `Quoted.escape`       a code point between such quotes;
* `Quoted.encode`       the quoted text.
-/

namespace Typings.Quoted

/-- the quote for a text: a single one, unless the text holds single quotes and no double quotes -/
def quoteFor (t : Text) : Char := if t.contains '\'' && !t.contains '"' then '"' else '\''

/-- the digit for a number below sixteen, in lower case -/
def hexDigit (n : Nat) : CodePoint := .scalar (Nat.digitChar n)

/-- the last `count` hexadecimal digits of a number -/
def hexDigits : Nat → Nat → Text
  | 0, _ => []
  | count + 1, n => hexDigits count (n / 16) ++ [hexDigit (n % 16)]

/-- an escape by number, as short as the number allows -/
def escapeNumber (n : Nat) : Text :=
  if n < 0x100 then '\\' :: 'x' :: hexDigits 2 n
  else if n < 0x10000 then '\\' :: 'u' :: hexDigits 4 n
  else '\\' :: 'U' :: hexDigits 8 n

def escape (quote : Char) (x : CodePoint) : Text :=
  if x = quote then ['\\', x]
  else if x = '\\' then ['\\', '\\']
  else if x = '\n' then ['\\', 'n']
  else if x = '\r' then ['\\', 'r']
  else if x = '\t' then ['\\', 't']
  else if x.isPrintable then [x]
  else escapeNumber x.toNat

def encode (t : Text) : Text :=
  [.scalar (quoteFor t)] ++ t.flatMap (escape (quoteFor t)) ++ [.scalar (quoteFor t)]

end Typings.Quoted
