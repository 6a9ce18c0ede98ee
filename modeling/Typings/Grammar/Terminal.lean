import Typings.Text.CodePoint
/-!
# Terminals of the declaration grammar

* `Terminal`             the classes of tokens, in the order of their names;
* `Terminal.name`        the name shown in messages;
* `Terminal.spelling?`   the one text of a keyword or a punctuation mark;
* `Terminal.isKeyword`   the spelling is a word, so it could also be read as a name;
* `Terminal.isKept`      the token stays in the syntax tree;
* `TerminalSet`          a set of terminals, one bit for each.
-/

namespace Typings

/-- a class of tokens; `END` stands for the end of the text -/
inductive Terminal where
  | END | ANY | AS | BOOLEAN | CLASS | COLON | COMMA | CONST | CONSTRUCTOR | DECLARE | DEFAULT
  | DOT | ENUM | EQUAL | EXPORT | EXTENDS | FROM | FUNCTION | IMPLEMENTS | IMPORT | INTERFACE
  | LBRACE | LESSTHAN | LET | LPAR | LSQB | MODULE | MORETHAN | NAME | NAMESPACE | NEW | NUMBER
  | NUMERAL | PRIVATE | PROTECTED | PUBLIC | QMARK | RBRACE | REQUIRE | RPAR | RSQB | SEMICOLON
  | STAR | STATIC | STRING | STRINGTYPE | TYPEOF | VAR | VOID | ELLIPSIS | ARROW
deriving DecidableEq, Inhabited

namespace Terminal

/-- every terminal, in the order of the names -/
def all : List Terminal := [
  END, ANY, AS, BOOLEAN, CLASS, COLON, COMMA, CONST, CONSTRUCTOR, DECLARE, DEFAULT, DOT, ENUM,
  EQUAL, EXPORT, EXTENDS, FROM, FUNCTION, IMPLEMENTS, IMPORT, INTERFACE, LBRACE, LESSTHAN, LET,
  LPAR, LSQB, MODULE, MORETHAN, NAME, NAMESPACE, NEW, NUMBER, NUMERAL, PRIVATE, PROTECTED, PUBLIC,
  QMARK, RBRACE, REQUIRE, RPAR, RSQB, SEMICOLON, STAR, STATIC, STRING, STRINGTYPE, TYPEOF, VAR,
  VOID, ELLIPSIS, ARROW]

/-- the place of a terminal in `all` -/
def index (t : Terminal) : Nat := t.ctorIdx

/-- the terminal's name in messages -/
def name : Terminal → String
  | END => "$END" | ANY => "ANY" | AS => "AS" | BOOLEAN => "BOOLEAN" | CLASS => "CLASS"
  | COLON => "COLON" | COMMA => "COMMA" | CONST => "CONST" | CONSTRUCTOR => "CONSTRUCTOR"
  | DECLARE => "DECLARE" | DEFAULT => "DEFAULT" | DOT => "DOT" | ENUM => "ENUM"
  | EQUAL => "EQUAL" | EXPORT => "EXPORT" | EXTENDS => "EXTENDS" | FROM => "FROM"
  | FUNCTION => "FUNCTION" | IMPLEMENTS => "IMPLEMENTS" | IMPORT => "IMPORT"
  | INTERFACE => "INTERFACE" | LBRACE => "LBRACE" | LESSTHAN => "LESSTHAN" | LET => "LET"
  | LPAR => "LPAR" | LSQB => "LSQB" | MODULE => "MODULE" | MORETHAN => "MORETHAN"
  | NAME => "NAME" | NAMESPACE => "NAMESPACE" | NEW => "NEW" | NUMBER => "NUMBER"
  | NUMERAL => "NUMERIC_LITERAL" | PRIVATE => "PRIVATE" | PROTECTED => "PROTECTED"
  | PUBLIC => "PUBLIC" | QMARK => "QMARK" | RBRACE => "RBRACE" | REQUIRE => "REQUIRE"
  | RPAR => "RPAR" | RSQB => "RSQB" | SEMICOLON => "SEMICOLON" | STAR => "STAR"
  | STATIC => "STATIC" | STRING => "STRING" | STRINGTYPE => "STRING_KW" | TYPEOF => "TYPEOF"
  | VAR => "VAR" | VOID => "VOID" | ELLIPSIS => "__ANON_0" | ARROW => "__ANON_1"

/-- the text of a keyword or a punctuation mark; none for a class of many texts -/
def spelling? : Terminal → Option String
  | END | NAME | NUMERAL | STRING => none
  | ANY => "any" | AS => "as" | BOOLEAN => "boolean" | CLASS => "class" | COLON => ":"
  | COMMA => "," | CONST => "const" | CONSTRUCTOR => "constructor" | DECLARE => "declare"
  | DEFAULT => "default" | DOT => "." | ENUM => "enum" | EQUAL => "=" | EXPORT => "export"
  | EXTENDS => "extends" | FROM => "from" | FUNCTION => "function" | IMPLEMENTS => "implements"
  | IMPORT => "import" | INTERFACE => "interface" | LBRACE => "\x7b" | LESSTHAN => "<"
  | LET => "let" | LPAR => "(" | LSQB => "[" | MODULE => "module" | MORETHAN => ">"
  | NAMESPACE => "namespace" | NEW => "new" | NUMBER => "number" | PRIVATE => "private"
  | PROTECTED => "protected" | PUBLIC => "public" | QMARK => "?" | RBRACE => "\x7d"
  | REQUIRE => "require" | RPAR => ")" | RSQB => "]" | SEMICOLON => ";" | STAR => "*"
  | STATIC => "static" | STRINGTYPE => "string" | TYPEOF => "typeof" | VAR => "var"
  | VOID => "void" | ELLIPSIS => "..." | ARROW => "=>"

/-- the terminal is spelled as a word -/
def isKeyword : Terminal → Bool
  | END | NAME | NUMERAL | STRING | COLON | COMMA | DOT | EQUAL | LBRACE | LESSTHAN | LPAR | LSQB
  | MORETHAN | QMARK | RBRACE | RPAR | RSQB | SEMICOLON | STAR | ELLIPSIS | ARROW => false
  | _ => true

/-- the terminals whose tokens stay in the syntax tree: those that carry a text of their own and
the words that only mark a declaration.  All others are implied by the shape of the tree. -/
def isKept : Terminal → Bool
  | NAME | STRING | NUMERAL | EXPORT | DECLARE | STATIC | CONST | QMARK | PUBLIC | PRIVATE
  | PROTECTED | ANY | NUMBER | BOOLEAN | STRINGTYPE | VOID => true
  | _ => false

/-- the keywords and punctuation marks, a longer spelling before a shorter one -/
def spelled : List Terminal := [
  CONSTRUCTOR, IMPLEMENTS, INTERFACE, NAMESPACE, PROTECTED, FUNCTION, BOOLEAN, DECLARE, DEFAULT,
  EXTENDS, PRIVATE, REQUIRE, EXPORT, IMPORT, MODULE, NUMBER, PUBLIC, STATIC, STRINGTYPE, TYPEOF,
  CLASS, CONST, ENUM, FROM, VOID, ANY, LET, NEW, VAR, ELLIPSIS, AS, ARROW, COLON, COMMA, DOT,
  EQUAL, LBRACE, LESSTHAN, LPAR, LSQB, MORETHAN, QMARK, RBRACE, RPAR, RSQB, SEMICOLON, STAR]

/-- the terminal of a name -/
def ofName? (s : String) : Option Terminal := all.find? fun t => t.name == s

theorem mem_all (t : Terminal) : t ∈ all := by cases t <;> decide

theorem all_getElem?_index (t : Terminal) : all[t.index]? = some t := by cases t <;> rfl

theorem index_injective {s t : Terminal} (h : s.index = t.index) : s = t := by
  have := all_getElem?_index s
  rw [h, all_getElem?_index t] at this
  exact (Option.some.inj this).symm

theorem ofName?_name (t : Terminal) : ofName? t.name = some t := by cases t <;> decide

end Terminal

/-- a set of terminals: bit `t.index` tells whether `t` is in it -/
structure TerminalSet where
  bits : Nat
deriving DecidableEq, Inhabited

namespace TerminalSet

/-- the set without elements -/
def empty : TerminalSet := ⟨0⟩

/-- membership -/
def contains (s : TerminalSet) (t : Terminal) : Bool := s.bits.testBit t.index

/-- the set with one more element -/
def insert (s : TerminalSet) (t : Terminal) : TerminalSet := ⟨s.bits ||| (1 <<< t.index)⟩

/-- the elements of either set -/
def union (s t : TerminalSet) : TerminalSet := ⟨s.bits ||| t.bits⟩

/-- the set of the elements of a list -/
def ofList (ts : List Terminal) : TerminalSet := ts.foldl insert empty

@[simp] theorem contains_empty (t : Terminal) : empty.contains t = false := Nat.zero_testBit _

theorem contains_insert (s : TerminalSet) (t u : Terminal) :
    (s.insert t).contains u = (s.contains u || decide (t = u)) := by
  simp only [contains, insert, Nat.testBit_or, Nat.one_shiftLeft, Nat.testBit_two_pow]
  by_cases h : t = u
  · simp [h]
  · have : t.index ≠ u.index := fun e => h (Terminal.index_injective e)
    simp [h, this]

theorem contains_union (s t : TerminalSet) (u : Terminal) :
    (s.union t).contains u = (s.contains u || t.contains u) := Nat.testBit_or ..

end TerminalSet

end Typings
