import Typings.Text.CodePoint
/-!
# Structured values

* `Json`             null, truth values, integers, texts, arrays and objects;
* `Json.ofOption`    null for a value that is not there.

The members of an object are kept in the order in which they are written.
-/

namespace Typings

/-- a structured value -/
inductive Json where
  | null
  | bool (b : Bool)
  | int (n : Int)
  | text (t : Text)
  | array (items : List Json)
  | object (members : List (Text × Json))
deriving Inhabited

namespace Json

/-- null for a value that is not there -/
def ofOption {α : Type} (f : α → Json) : Option α → Json
  | none => null
  | some x => f x

end Json

end Typings
