import Typings.Syntax.Parse
import Typings.Text.Excerpt
import Typings.Text.Quoted
/-!
# Syntax errors in words

* `Token.describe`           a token with its class;
* `SyntaxError.place`        where the error is;
* `SyntaxError.message`      the error in words, for a reader who has the source at hand.
-/

namespace Typings

namespace Terminal

/-- the name of a terminal, or its spelling in quotes if it has no name of its own -/
def display : Terminal → Text
  | ELLIPSIS => "\"...\""
  | ARROW => "\"=>\""
  | t => t.name

end Terminal

namespace Token

/-- a token with its class -/
def describe (t : Token) : Text :=
  "Token('" ++ t.kind.name ++ "', " ++ Quoted.encode t.text ++ ")"

end Token

namespace SyntaxError

/-- the list of the classes that may come -/
def expectation (names : List Text) : Text :=
  "Expected one of: \n\t* " ++ Text.join "\n\t* " names

/-- a token that cannot come at its place -/
def unexpected (t : Token) : Text :=
  "Unexpected token " ++ t.describe ++ " at line " ++ Text.ofNat t.start.line ++ ", column " ++
    Text.ofNat t.start.column ++ ".\n"

/-- where the error is: at the token, or at the code point that begins none -/
def place : SyntaxError → Loc
  | refused token _ | misplaced token _ _ => token.start.loc
  | unreadable place _ _ _ => place.loc
  | derailed => ⟨0, 0⟩

/-- the error in words -/
def message (source : Text) : SyntaxError → Text
  | refused token expected => unexpected token ++ expectation (expected.map fun t => t.name)
  | misplaced token expected last =>
    unexpected token ++ expectation (expected.map Terminal.display) ++ "\nPrevious tokens: [" ++
      (match last with
        | some t => t.describe
        | none => "None") ++ "]"
  | unreadable place found expected last =>
    "No terminal matches '" ++ [found] ++ "' in the current parser context, at line " ++
      Text.ofNat place.line ++ " col " ++ Text.ofNat place.column ++ "\n\n" ++
      Excerpt.around source place.offset ++ expectation (expected.map Terminal.display) ++
      (match last with
        | some t => "\n\nPrevious tokens: " ++ t.describe
        | none => "")
  | derailed => "The table does not fit the grammar"

end SyntaxError

end Typings
