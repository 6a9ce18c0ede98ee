import Typings.Files.Path
import Typings.Text.DecimalDigit
import Typings.Text.Quoted
/-!
# Command line arguments

* `Flag`                    the options;
* `Piece`                   what an argument is, seen by itself;
* `Target`                  where the output goes;
* `Arguments`               what the arguments ask for;
* `Stop`                    why they ask for nothing: help, or an error;
* `Arguments.ofList`        the reading of a list of arguments.

An option may be shortened to a front that no other option shares.  Single-letter options may stand
together behind one dash, and the value of an option may follow it at once, behind an equals sign or
as the next argument.  An equals sign counts only behind the first option of an argument; further on
it is a letter like any other.  Behind `--` no argument is an option.
-/

namespace Typings

inductive Flag where
  | help
  | verbose
  | json
  | output
deriving DecidableEq

namespace Flag

/-- the spellings of the options, in the order in which they are listed -/
def spellings : List (Text × Flag) := [
  ("-h", help), ("--help", help), ("-v", verbose), ("--verbose", verbose), ("--json", json),
  ("-o", output), ("--output", output)]

def name : Flag → String
  | help => "-h/--help"
  | verbose => "-v/--verbose"
  | json => "--json"
  | output => "-o/--output"

def hasValue : Flag → Bool
  | output => true
  | help | verbose | json => false

end Flag

inductive Stop where
  | help
  | ambiguous (argument : Text) (matching : List Text)
  | missingValue (f : Flag)
  | needlessValue (f : Flag) (value : Text)
  | missingSource
  | unrecognized (arguments : List Text)
deriving DecidableEq

/-- what an argument is, seen by itself -/
inductive Piece where
  | operand (t : Text)
  | ending
  /-- an option, spelled with one or two dashes, and the text attached to it -/
  | option (f : Flag) (long : Bool) (attached : Option Text)
  | unknown (t : Text)
deriving DecidableEq

namespace Piece

/-- what stands before and behind the first equals sign -/
def splitEquals (t : Text) : Text × Option Text :=
  match t.dropWhile (· ≠ .scalar '=') with
  | [] => (t, none)
  | _ :: value => (t.takeWhile (· ≠ .scalar '='), some value)

def isNegativeNumber : Text → Bool
  | .scalar '-' :: t =>
    let whole := t.takeWhile CodePoint.isDecimal
    match t.dropWhile CodePoint.isDecimal with
    | [] | [.scalar '\n'] => !whole.isEmpty
    | .scalar '.' :: rest =>
      let part := rest.takeWhile CodePoint.isDecimal
      !part.isEmpty && (rest.dropWhile CodePoint.isDecimal == [] ||
        rest.dropWhile CodePoint.isDecimal == [.scalar '\n'])
    | _ => false
  | _ => false

/-- an argument that is no option: a negative number or a text with a blank is an operand -/
def plain (t : Text) : Piece :=
  if isNegativeNumber t || t.contains ' ' then operand t else unknown t

/-- an argument with two dashes: the options whose spelling begins so -/
def ofLong (t : Text) : Except Stop Piece :=
  let front := (splitEquals t).1
  match Flag.spellings.filter fun s => front.isPrefixOf s.1 with
  | [] => .ok (plain t)
  | [s] => .ok (option s.2 true (splitEquals t).2)
  | several => .error (.ambiguous t (several.map (·.1)))

/-- an argument with one dash: a letter that is an option, with the rest attached -/
def ofShort (t : Text) : Piece :=
  match Flag.spellings.lookup (t.take 2) with
  | some f => option f false (some (t.drop 2))
  | none => plain t

/-- what an argument is, before the end of the options -/
def ofText (t : Text) : Except Stop Piece :=
  match t with
  | .scalar '-' :: x :: _ =>
    match Flag.spellings.lookup t with
    | some f => .ok (option f (x == .scalar '-') none)
    | none =>
      match (splitEquals t).2, Flag.spellings.lookup (splitEquals t).1 with
      | some value, some f => .ok (option f (x == .scalar '-') (some value))
      | _, _ => if x = '-' then ofLong t else .ok (ofShort t)
  | _ => .ok (operand t)

def ofList : List Text → Except Stop (List Piece)
  | [] => .ok []
  | t :: rest =>
    if t = ("--" : Text) then .ok (ending :: rest.map operand)
    else do
      let piece ← ofText t
      let pieces ← ofList rest
      .ok (piece :: pieces)

end Piece

inductive Target where
  | file (path : Path)
  /-- the value `--` is taken for the end of the options, so there is none -/
  | nowhere
deriving DecidableEq

def Target.ofValue (value : Text) : Target :=
  if value = ("--" : Text) then nowhere else file (Path.ofText value)

inductive Effect where
  | help
  | verbose
  | json
  | output (target : Target)
deriving DecidableEq

/-- the effect of an option with a value, which only the output has -/
def Flag.effect (value : Text) : Flag → Effect
  | help => .help
  | verbose => .verbose
  | json => .json
  | output => .output (.ofValue value)

/-- options that stand together: their effects, and an option that still needs a value -/
structure Cluster where
  effects : List Effect
  waiting : Option Flag
deriving DecidableEq

namespace Cluster

def push (e : Effect) (c : Cluster) : Cluster := { c with effects := e :: c.effects }

/-- an option with nothing attached -/
def single (f : Flag) : Cluster := if f.hasValue then ⟨[], some f⟩ else ⟨[f.effect []], none⟩

/-- an option with one dash and the text attached to it: its value, or more options -/
def ofAttached (f : Flag) : Text → Except Stop Cluster
  | [] => if f.hasValue then .ok ⟨[f.effect []], none⟩ else .error (.needlessValue f [])
  | x :: t =>
    if f.hasValue then .ok ⟨[f.effect (x :: t)], none⟩
    else match Flag.spellings.lookup [.scalar '-', x] with
      | none => .error (.needlessValue f (x :: t))
      | some g =>
        match t with
        | [] => .ok ((single g).push (f.effect []))
        | y :: t => (ofAttached g (y :: t)).map (push (f.effect []))

def ofOption (f : Flag) (long : Bool) : Option Text → Except Stop Cluster
  | none => .ok (single f)
  | some value =>
    if long then
      if f.hasValue then .ok ⟨[f.effect value], none⟩ else .error (.needlessValue f value)
    else ofAttached f value

end Cluster

/-- what the arguments ask for; `source` is not yet known while they are read -/
structure Request where
  source : Option Text := none
  verbosity : Nat := 0
  json : Bool := false
  output : Option Target := none
  extras : List Text := []
deriving DecidableEq

namespace Request

def perform (r : Request) : List Effect → Except Stop Request
  | [] => .ok r
  | .help :: _ => .error .help
  | .verbose :: rest => perform { r with verbosity := r.verbosity + 1 } rest
  | .json :: rest => perform { r with json := true } rest
  | .output target :: rest => perform { r with output := some target } rest

/-- a request with one more argument that nothing takes -/
def extra (r : Request) (t : Text) : Request := { r with extras := r.extras ++ [t] }

/-- a request with all pieces; the first operand is the source, and takes a neighbouring end of
options with it -/
def consume (r : Request) : List Piece → Except Stop Request
  | [] => .ok r
  | .operand t :: rest =>
    match r.source, rest with
    | none, .ending :: rest => consume { r with source := some t } rest
    | none, rest => consume { r with source := some t } rest
    | some _, rest => consume (r.extra t) rest
  | .ending :: rest =>
    match r.source, rest with
    | none, .operand t :: rest => consume { r with source := some t } rest
    | _, rest => consume (r.extra "--") rest
  | .unknown t :: rest => consume (r.extra t) rest
  | .option f long attached :: rest => do
    let c ← Cluster.ofOption f long attached
    match c.waiting with
    | none => do
      let r ← r.perform c.effects
      consume r rest
    | some g =>
      match rest with
      | .operand value :: rest => do
        let r ← r.perform (c.effects ++ [g.effect value])
        consume r rest
      | _ => .error (.missingValue g)

end Request

structure Arguments where
  source : Path
  verbosity : Nat
  json : Bool
  output : Option Target
deriving DecidableEq

def Arguments.ofList (args : List Text) : Except Stop Arguments := do
  let pieces ← Piece.ofList args
  let r ← Request.consume {} pieces
  match r.source with
  | none => .error .missingSource
  | some source =>
    if r.extras.isEmpty then .ok ⟨Path.ofText source, r.verbosity, r.json, r.output⟩
    else .error (.unrecognized r.extras)

namespace Stop

def usage : String := "usage: dtsir [-h] [-v] [--json] [-o OUTPUT] source\n"

def helpText : String :=
  usage ++ "\n" ++
  "dtsir: TypeScript declaration file -> IR converter\n" ++
  "\n" ++
  "positional arguments:\n" ++
  "  source                Declaration source file (.d.ts)\n" ++
  "\n" ++
  "options:\n" ++
  "  -h, --help            show this help message and exit\n" ++
  "  -v, --verbose         Increase verbosity (-vv prints the parsed declaration\n" ++
  "                        AST to stderr)\n" ++
  "  --json                Emit the IR and diagnostics as JSON\n" ++
  "  -o OUTPUT, --output OUTPUT\n" ++
  "                        Write the IR to this file instead of stdout\n"

def message? : Stop → Option Text
  | help => none
  | ambiguous argument matching =>
    some ("ambiguous option: " ++ argument ++ " could match " ++ Text.join ", " matching)
  | missingValue f => some ("argument " ++ f.name ++ ": expected one argument")
  | needlessValue f value =>
    some ("argument " ++ f.name ++ ": ignored explicit argument " ++ Quoted.encode value)
  | missingSource => some "the following arguments are required: source"
  | unrecognized arguments => some ("unrecognized arguments: " ++ Text.join " " arguments)

end Stop

end Typings
