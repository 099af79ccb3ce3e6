import KernelAlgebra.Number.Binary

/-!
# Reading numbers

The grammar: an optional sign, then `inf`, `infinity`, a decimal number or a hexadecimal one
with a binary exponent; `nan` has no sign.  Underscores may stand between digits.  The value
is the nearest double, and a number beyond the largest one is out of range.
-/

namespace KernelAlgebra.Number

inductive ReadError where
  | malformed
  | outOfRange
  deriving DecidableEq, Repr

def ReadError.message : ReadError → String
  | .malformed => "invalid syntax"
  | .outOfRange => "value out of range"

def isDecimal (c : Char) : Bool := '0' ≤ c && c ≤ '9'

def hexValue? (c : Char) : Option Nat :=
  if isDecimal c then some (c.toNat - 48)
  else if 'a' ≤ c && c ≤ 'f' then some (c.toNat - 87)
  else if 'A' ≤ c && c ≤ 'F' then some (c.toNat - 55)
  else none

def hexadecimal? (cs : List Char) : Option Nat :=
  cs.foldlM (fun n c => (hexValue? c).map (n * 16 + ·)) 0

def digitValue? (hex : Bool) (c : Char) : Option Nat :=
  if hex then hexValue? c
  else if isDecimal c then some (c.toNat - 48) else none

structure Significand where
  value : Nat
  anyDigit : Bool
  point : Bool
  places : Nat
  deriving Repr

def readSignificand (hex : Bool) (s : Significand) : List Char → Significand × List Char
  | [] => (s, [])
  | c :: rest =>
      if c = '_' then readSignificand hex s rest
      else if c = '.' then
        if s.point then (s, c :: rest) else readSignificand hex { s with point := true } rest
      else
        match digitValue? hex c with
        | some d =>
            readSignificand hex
              { s with
                value := s.value * (if hex then 16 else 10) + d,
                anyDigit := true,
                places := if s.point then s.places + 1 else s.places } rest
        | none => (s, c :: rest)

/-- Exponents stop growing here; no number needs a larger one. -/
def exponentCap : Nat := 10000

def readExponentDigits (e : Nat) : List Char → Nat × List Char
  | [] => (e, [])
  | c :: rest =>
      if c = '_' then readExponentDigits e rest
      else if isDecimal c then
        readExponentDigits (if e < exponentCap then e * 10 + (c.toNat - 48) else e) rest
      else (e, c :: rest)

def readExponent? (cs : List Char) : Option (Int × List Char) :=
  let (negative, body) :=
    match cs with
    | '+' :: rest => (false, rest)
    | '-' :: rest => (true, rest)
    | _ => (false, cs)
  match body with
  | c :: _ =>
      if isDecimal c then
        let (e, rest) := readExponentDigits 0 body
        some (if negative then -(e : Int) else e, rest)
      else none
  | [] => none

inductive Before where
  | nothing
  | digit
  | underscore
  | other
  deriving DecidableEq, Repr

/-- Underscores stand between digits, or between the base mark and a digit. -/
def underscoresFit (hex : Bool) (before : Before) : List Char → Bool
  | [] => before != .underscore
  | c :: rest =>
      if (digitValue? hex c).isSome then underscoresFit hex .digit rest
      else if c = '_' then before == .digit && underscoresFit hex .underscore rest
      else before != .underscore && underscoresFit hex .other rest

def underscoresOk (hex : Bool) (cs : List Char) : Bool :=
  if hex then underscoresFit true .digit (cs.drop 2) else underscoresFit false .nothing cs

/-- Decimal exponents outside this window give zero or infinity for any double. -/
def decimalWindow : Int := 400

/-- `value * 10 ^ power`, without building powers that cannot matter. -/
def ofDecimal (negative : Bool) (value : Nat) (power : Int) : Float :=
  if value = 0 then withSign negative 0
  else
    let size : Int := power + (Nat.toDigits 10 value).length
    if decimalWindow < size then withSign negative double.infinity
    else if size < -decimalWindow then withSign negative 0
    else if 0 ≤ power then ofRatio negative (value * Nat.pow 10 power.toNat) 1
    else ofRatio negative value (Nat.pow 10 (-power).toNat)

def ofBinary (negative : Bool) (value : Nat) (power : Int) : Float :=
  if value = 0 then withSign negative 0
  else
    let size : Int := power + (Nat.log2 value : Int)
    if 2000 < size then withSign negative double.infinity
    else if size < -2000 then withSign negative 0
    else
      let (num, den) := scaled value power
      ofRatio negative num den

def readUnsigned (negative hex : Bool) (cs : List Char) : Except ReadError Float :=
  let (s, rest) := readSignificand hex ⟨0, false, false, 0⟩ (if hex then cs.drop 2 else cs)
  if !s.anyDigit then .error .malformed
  else
    let marked :=
      match rest with
      | c :: _ => if hex then c = 'p' || c = 'P' else c = 'e' || c = 'E'
      | [] => false
    let tail? : Option (Int × List Char) :=
      if marked then readExponent? (rest.drop 1)
      else if hex then none
      else some (0, rest)
    match tail? with
    | some (e, []) =>
        if !underscoresOk hex cs then .error .malformed
        else
          let x :=
            if hex then ofBinary negative s.value (e - 4 * s.places)
            else ofDecimal negative s.value (e - s.places)
          if x.isInf then .error .outOfRange else .ok x
    | _ => .error .malformed

def infinityNames : List String := ["inf", "infinity"]

def read (s : String) : Except ReadError Float :=
  let cs := s.toList
  let (signed, negative, body) :=
    match cs with
    | '+' :: rest => (true, false, rest)
    | '-' :: rest => (true, true, rest)
    | _ => (false, false, cs)
  let word := String.ofList (body.map Char.toLower)
  if infinityNames.contains word then .ok (withSign negative double.infinity)
  else if word = "nan" && !signed then .ok (Float.ofBits 0x7FF8000000000001)
  else
    let hex :=
      match body with
      | '0' :: x :: _ :: _ => x = 'x' || x = 'X'
      | _ => false
    readUnsigned negative hex body

end KernelAlgebra.Number
