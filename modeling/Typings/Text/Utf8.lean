import Typings.Text.CodePoint
/-!
# Text as bytes

* `Utf8.decode?`     the text that bytes spell in UTF-8, if they spell one;
* `Utf8.encode`      the bytes of a text, or the surrogates in it that have none;
* `Utf8.Fault`       a row of such surrogates;
* `Text.unifyLineEnds`     a text with a line feed in the place of every other line end.

Only the shortest spelling of a code point counts, and no spelling of a surrogate.
-/

namespace Typings

namespace Utf8

/-- the lower bits of a byte that continues a code point -/
def continuation? (b : UInt8) : Option Nat :=
  if 0x80 ≤ b.toNat ∧ b.toNat < 0xC0 then some (b.toNat - 0x80) else none

/-- the scalar value with a number that is not below a bound -/
def scalar? (bound n : Nat) : Option CodePoint :=
  if bound ≤ n then
    match CodePoint.ofNat? n with
    | some (.scalar c) => some (.scalar c)
    | _ => none
  else none

def decode? : List UInt8 → Option Text
  | [] => some []
  | b :: rest =>
    if b.toNat < 0x80 then do
      let x ← scalar? 0 b.toNat
      let t ← decode? rest
      some (x :: t)
    else match rest with
      | [] => none
      | c :: rest => do
        let c ← continuation? c
        if 0xC0 ≤ b.toNat ∧ b.toNat < 0xE0 then
          let x ← scalar? 0x80 ((b.toNat - 0xC0) * 0x40 + c)
          let t ← decode? rest
          some (x :: t)
        else match rest with
          | [] => none
          | d :: rest => do
            let d ← continuation? d
            if 0xE0 ≤ b.toNat ∧ b.toNat < 0xF0 then
              let x ← scalar? 0x800 ((b.toNat - 0xE0) * 0x1000 + c * 0x40 + d)
              let t ← decode? rest
              some (x :: t)
            else match rest with
              | [] => none
              | e :: rest => do
                let e ← continuation? e
                if 0xF0 ≤ b.toNat ∧ b.toNat < 0xF8 then
                  let x ← scalar? 0x10000
                    ((b.toNat - 0xF0) * 0x40000 + c * 0x1000 + d * 0x40 + e)
                  let t ← decode? rest
                  some (x :: t)
                else none

def encodeNumber (n : Nat) : List UInt8 :=
  if n < 0x80 then [UInt8.ofNat n]
  else if n < 0x800 then [UInt8.ofNat (0xC0 + n / 0x40), UInt8.ofNat (0x80 + n % 0x40)]
  else if n < 0x10000 then
    [UInt8.ofNat (0xE0 + n / 0x1000), UInt8.ofNat (0x80 + n / 0x40 % 0x40),
      UInt8.ofNat (0x80 + n % 0x40)]
  else
    [UInt8.ofNat (0xF0 + n / 0x40000), UInt8.ofNat (0x80 + n / 0x1000 % 0x40),
      UInt8.ofNat (0x80 + n / 0x40 % 0x40), UInt8.ofNat (0x80 + n % 0x40)]

/-- surrogates in a row that have no bytes, and the place of the first of them -/
structure Fault where
  run : Text
  first : Nat
deriving DecidableEq

/-- the bytes of a text from an offset on, where some surrogates stand for a byte -/
def encodeWith (byte? : Fin 2048 → Option UInt8) (offset : Nat) : Text → Except Fault (List UInt8)
  | [] => .ok []
  | .scalar c :: t => (encodeWith byte? (offset + 1) t).map (encodeNumber c.toNat ++ ·)
  | .surrogate n :: t =>
    match byte? n with
    | some b => (encodeWith byte? (offset + 1) t).map (b :: ·)
    | none => .error ⟨.surrogate n :: t.takeWhile CodePoint.isSurrogate, offset⟩

/-- the bytes of a text, or the first surrogates in it -/
def encode (t : Text) : Except Fault (List UInt8) := encodeWith (fun _ => none) 0 t

def Fault.message (fault : Fault) : Text :=
  match fault.run with
  | [x] =>
    "'utf-8' codec can't encode character '\\u" ++
      Text.ofString (String.ofList (Nat.toDigits 16 x.toNat)) ++ "' in position " ++
      Text.ofNat fault.first ++ ": surrogates not allowed"
  | run =>
    "'utf-8' codec can't encode characters in position " ++ Text.ofNat fault.first ++ "-" ++
      Text.ofNat (fault.first + run.length - 1) ++ ": surrogates not allowed"

end Utf8

/-- a text with a line feed for each carriage return, alone or with a line feed behind it -/
def Text.unifyLineEnds : Text → Text
  | [] => []
  | .scalar '\r' :: .scalar '\n' :: t => .scalar '\n' :: Text.unifyLineEnds t
  | .scalar '\r' :: t => .scalar '\n' :: Text.unifyLineEnds t
  | x :: t => x :: Text.unifyLineEnds t

end Typings
