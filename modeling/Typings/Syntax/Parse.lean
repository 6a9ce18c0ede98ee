import Typings.Grammar.Automaton
import Typings.Syntax.Derivation
/-!
# Parsing

The parser keeps a stack of states, each with the derivation that led to it.  Before each token it
skips ignored text and looks for a token of a class that the top state has an action for; the token
then causes reductions until it is read or refused.

* `Frame`              a state and the derivation read on the way to it;
* `Reaction`           what a stack does with a token;
* `SyntaxError`        why a text is not a declaration file;
* `parse`              the derivation of a text.

A reduction looks at the roots of the derivations that it combines, so whatever the table says,
the derivation of an accepted text is one of the grammar.
-/

namespace Typings

/-- a state of the automaton and the derivation read on the way to it -/
structure Frame where
  state : Nat
  derivation : Derivation
deriving Inhabited

inductive Reaction where
  | shifted (stack : List Frame)
  | accepted (derivation : Derivation)
  /-- the state on top, after reductions, has no action for the token -/
  | refused (stack : List Frame)
  /-- the stack does not fit the table -/
  | derailed

/-- why a text is not a declaration file -/
inductive SyntaxError where
  /-- the parser refuses a token, or the end of the text -/
  | refused (token : Token) (expected : List Terminal)
  /-- there is a token, but not of a class that may come here -/
  | misplaced (token : Token) (expected : List Terminal) (last : Option Token)
  /-- no token begins with this code point -/
  | unreadable (place : Cursor) (found : CodePoint) (expected : List Terminal) (last : Option Token)
  | derailed

namespace Parser

def top : List Frame → Nat
  | [] => 0
  | f :: _ => f.state

/-- take the parts of a production off a stack and combine them -/
def reduce? (p : Production) (stack : List Frame) : Option (Derivation × List Frame) :=
  let parts := ((stack.take p.rhs.length).map (·.derivation)).reverse
  if parts.map Derivation.root = p.rhs then
    some (.node p parts, stack.drop p.rhs.length)
  else none

/-- reductions and a last action for a token, `fuel` of them at most -/
def reactWithin : Nat → List Frame → Token → Reaction
  | 0, _, _ => .derailed
  | fuel + 1, stack, token =>
    match Automaton.action (top stack) token.kind with
    | none => .refused stack
    | some (.shift state) => .shifted (⟨state, .leaf token⟩ :: stack)
    | some (.reduce p) =>
      match reduce? p stack with
      | none => .derailed
      | some (d, below) =>
        if p.lhs = .file then
          if below.isEmpty && token.kind == .END then .accepted d else .derailed
        else match Automaton.goto (top below) p.lhs with
          | none => .derailed
          | some state => reactWithin fuel (⟨state, d⟩ :: below) token

/-- what a stack does with a token.  A reduction that does not shorten the stack puts a phrase in
the place of one of its parts, so each frame sees fewer of them than there are phrases. -/
def react (stack : List Frame) (token : Token) : Reaction :=
  reactWithin ((stack.length + 1) * (Nonterminal.all.length + 1)) stack token

/-- a token of a class would be read, or complete the text -/
def admits (stack : List Frame) (t : Terminal) : Bool :=
  match react stack ⟨t, [], .start⟩ with
  | .shifted _ | .accepted _ => true
  | .refused _ | .derailed => false

def admitted (stack : List Frame) : List Terminal :=
  (Automaton.expected (top stack)).filter (admits stack)

/-- the classes that are looked for at the front of the text in a state: a keyword is not looked
for by itself where a name may come, and the end of the text is not looked for -/
def lookedFor (state : Nat) : List Terminal :=
  let all := Automaton.expected state
  all.filter fun t => t != .END && !(t.isKeyword && all.contains .NAME)

def orElse (these those : List Terminal) : List Terminal := if these.isEmpty then those else these

def refusal (stack : List Frame) (token : Token) : SyntaxError :=
  .refused token (orElse (admitted stack) (Automaton.expected (top stack)))

/-- the error at a text that begins with no token of a class that may come -/
def missing (stack : List Frame) (place : Cursor) (x : CodePoint) (rest : Text) (last : Option Token) :
    SyntaxError :=
  match Token.readAny? (x :: rest) with
  | some (kind, piece, _) =>
    .misplaced ⟨kind, piece, place⟩ (orElse (admitted stack) (lookedFor (top stack))) last
  | none => .unreadable place x (lookedFor (top stack)) last

/-- the token that stands for the end of the text: it has the place of the last token -/
def endToken (last : Option Token) : Token := ⟨.END, [], (last.map (·.start)).getD .start⟩

/-- read the text behind a place, `fuel` tokens at most -/
def run : Nat → List Frame → Cursor → Text → Option Token → Except SyntaxError Derivation
  | 0, _, _, _, _ => .error .derailed
  | fuel + 1, stack, place, text, last =>
    let here := place.advance (Pattern.gap text).1
    match (Pattern.gap text).2 with
    | [] =>
      match react stack (endToken last) with
      | .accepted d => .ok d
      | .refused stack => .error (refusal stack (endToken last))
      | .shifted _ | .derailed => .error .derailed
    | x :: rest =>
      match Token.read? (Automaton.expected (top stack)).contains (x :: rest) with
      | none => .error (missing stack here x rest last)
      | some (kind, piece, rest) =>
        match react stack ⟨kind, piece, here⟩ with
        | .shifted stack => run fuel stack (here.advance piece) rest (some ⟨kind, piece, here⟩)
        | .refused stack => .error (refusal stack ⟨kind, piece, here⟩)
        | .accepted _ | .derailed => .error .derailed

end Parser

def parse (source : Text) : Except SyntaxError Derivation :=
  Parser.run (source.length + 1) [] .start source none

end Typings
