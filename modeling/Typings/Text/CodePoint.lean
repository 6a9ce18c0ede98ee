/-!
# Code points and text

A text is a sequence of code points.  Text that was read from a file holds scalar values only; a
string literal can also name a surrogate, so names, values and output may hold those.

* `CodePoint`            a scalar value or a surrogate;
* `CodePoint.toNat`      its number, and `CodePoint.ofNat?` back;
* `Text`                 a list of code points;
* `Text.ofString`        a string of scalar values as a text, and `Text.toString?` back.
-/

namespace Typings

/-- a Unicode code point: a scalar value, or one of the surrogates U+D800 to U+DFFF -/
inductive CodePoint where
  | scalar (c : Char)
  | surrogate (n : Fin 2048)
deriving DecidableEq, Inhabited

namespace CodePoint

instance : Coe Char CodePoint := ⟨scalar⟩

def toNat : CodePoint → Nat
  | scalar c => c.toNat
  | surrogate n => 0xD800 + n.val

/-- the code point with a number, none above U+10FFFF -/
def ofNat? (n : Nat) : Option CodePoint :=
  if h : n.isValidChar then some (scalar (Char.ofNatAux n h))
  else if h : n - 0xD800 < 2048 ∧ 0xD800 ≤ n then some (surrogate ⟨n - 0xD800, h.1⟩)
  else none

def isSurrogate : CodePoint → Bool
  | scalar _ => false
  | surrogate _ => true

/-- a predicate on scalar values; no surrogate satisfies it -/
def satisfies (p : Char → Bool) : CodePoint → Bool
  | scalar c => p c
  | surrogate _ => false

@[simp] theorem satisfies_scalar (p : Char → Bool) (c : Char) : (scalar c).satisfies p = p c := rfl

@[simp] theorem satisfies_surrogate (p : Char → Bool) (n : Fin 2048) :
    (surrogate n).satisfies p = false := rfl

end CodePoint

abbrev Text := List CodePoint

namespace Text

def ofString (s : String) : Text := s.toList.map .scalar

instance : Coe String Text := ⟨ofString⟩

/-- the scalar values of a text, none if it holds a surrogate -/
def scalars? : Text → Option (List Char)
  | [] => some []
  | .scalar c :: rest => (scalars? rest).map (c :: ·)
  | .surrogate _ :: _ => none

/-- the string that a text spells, none if it holds a surrogate -/
def toString? (t : Text) : Option String := (scalars? t).map String.ofList

theorem scalars?_map_scalar (cs : List Char) : scalars? (cs.map .scalar) = some cs := by
  induction cs with
  | nil => rfl
  | cons c cs ih => simp [scalars?, ih]

/-- `sep` between neighbouring parts -/
def join (sep : Text) (parts : List Text) : Text := (parts.intersperse sep).flatten

theorem join_cons_flatMap (sep part : Text) (parts : List Text) :
    join sep (part :: parts) = part ++ parts.flatMap (sep ++ ·) := by
  induction parts generalizing part with
  | nil => rfl
  | cons next parts ih =>
    rw [List.flatMap_cons, List.append_assoc, ← ih]
    rfl

def ofNat (n : Nat) : Text := ofString (toString n)

/-- the decimal digits of an integer, after a minus sign if it is negative -/
def ofInt : Int → Text
  | .ofNat n => ofNat n
  | .negSucc n => ofString "-" ++ ofNat (n + 1)

end Text

end Typings
