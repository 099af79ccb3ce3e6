import KernelAlgebra.Number.Read

/-!
# Reading integers

Integers are plain decimal ones, or signed ones with an optional base mark.
-/

namespace KernelAlgebra.Number

def maxInteger : Nat := Nat.pow 2 63 - 1

def natural? (s : String) : Option Nat :=
  if s ≠ "" && s.toList.all isDecimal then
    some (s.toList.foldl (fun n c => n * 10 + (c.toNat - 48)) 0)
  else none

def anyDigit? (c : Char) : Option Nat :=
  if isDecimal c then some (c.toNat - 48)
  else if 'a' ≤ c && c ≤ 'z' then some (c.toNat - 87)
  else if 'A' ≤ c && c ≤ 'Z' then some (c.toNat - 55)
  else none

/--
Digits of a base with underscores among them.  The first digit that takes the value to 64
bits or more decides, whatever follows it.
-/
def readDigits (base value : Nat) : List Char → Except ReadError Nat
  | [] => .ok value
  | c :: rest =>
      if c = '_' then readDigits base value rest
      else
        match anyDigit? c with
        | none => .error .malformed
        | some d =>
            if base ≤ d then .error .malformed
            else if Nat.pow 2 64 ≤ value * base + d then .error .outOfRange
            else readDigits base (value * base + d) rest

def announcedBase : List Char → Nat × List Char
  | '0' :: mark :: d :: rest =>
      match mark.toLower with
      | 'b' => (2, d :: rest)
      | 'o' => (8, d :: rest)
      | 'x' => (16, d :: rest)
      | _ => (8, mark :: d :: rest)
  | '0' :: rest => (8, rest)
  | cs => (10, cs)

def integerUnderscoresOk (cs : List Char) : Bool :=
  match cs with
  | '0' :: mark :: rest =>
      match mark.toLower with
      | 'x' => underscoresFit true .digit rest
      | 'b' | 'o' => underscoresFit false .digit rest
      | _ => underscoresFit false .nothing cs
  | _ => underscoresFit false .nothing cs

/--
An unsigned integer of 64 bits.  A leading zero means base eight, the marks `0b`, `0o` and `0x`
mean two, eight and sixteen, and underscores may stand between digits.
-/
def readMagnitude (body : List Char) : Except ReadError Nat :=
  if body.isEmpty then .error .malformed
  else
    let (base, digits) := announcedBase body
    match readDigits base 0 digits with
    | .error e => .error e
    | .ok n => if integerUnderscoresOk body then .ok n else .error .malformed

def readInteger (s : String) : Except ReadError Int :=
  let (negative, body) :=
    match s.toList with
    | '+' :: rest => (false, rest)
    | '-' :: rest => (true, rest)
    | cs => (false, cs)
  match readMagnitude body with
  | .error e => .error e
  | .ok n =>
      if negative then
        if maxInteger + 1 < n then .error .outOfRange else .ok (-(n : Int))
      else if maxInteger < n then .error .outOfRange
      else .ok n

end KernelAlgebra.Number
