/-!
# Binary floating point numbers as exact integers

A finite number is `m * 2 ^ e` with an integer significand `m`.  Rounding takes a ratio of
naturals to the nearest number of a format, and a tie to the even significand.
-/

namespace KernelAlgebra.Number

/--
A binary interchange format: significands have `precision` bits, and `lowest` is the
exponent of the last bit of the smallest numbers.
-/
structure Format where
  precision : Nat
  lowest : Int
  infinity : Nat
  deriving Repr

def double : Format := ⟨53, -1074, 0x7FF0000000000000⟩

def single : Format := ⟨24, -149, 0x7F800000⟩

inductive Value where
  | nan
  | infinite (negative : Bool)
  | finite (negative : Bool) (significand : Nat) (exponent : Int)
  deriving DecidableEq, Repr

def Format.value (f : Format) (negative : Bool) (magnitude : Nat) : Value :=
  let hidden := Nat.pow 2 (f.precision - 1)
  if f.infinity < magnitude then .nan
  else if magnitude = f.infinity then .infinite negative
  else if magnitude < hidden then .finite negative magnitude f.lowest
  else .finite negative (hidden + magnitude % hidden) (f.lowest + (magnitude / hidden : Nat) - 1)

def ofFloat (x : Float) : Value :=
  let bits := x.toBits.toNat
  double.value (Nat.pow 2 63 ≤ bits) (bits % Nat.pow 2 63)

/-- The quotient to the nearest natural, a tie to the even one. -/
def roundDiv (num den : Nat) : Nat :=
  let q := num / den
  let r := num % den
  if 2 * r < den then q
  else if den < 2 * r then q + 1
  else q + q % 2

/-- `n * 2 ^ e` as a ratio. -/
def scaled (n : Nat) (e : Int) : Nat × Nat :=
  if 0 ≤ e then (n * Nat.pow 2 e.toNat, 1) else (n, Nat.pow 2 (-e).toNat)

def leadingBit (num den : Nat) : Int :=
  let d : Int := (Nat.log2 num : Int) - (Nat.log2 den : Int)
  let (a, b) := scaled den d
  if num * b < a then d - 1 else d

/-- The pattern of the number nearest to a positive ratio; infinity when it is out of range. -/
def Format.round (f : Format) (num den : Nat) : Nat :=
  let e := max f.lowest (leadingBit num den - (f.precision - 1 : Nat))
  let (a, b) := scaled den e
  let q := roundDiv (num * b) a
  min f.infinity ((e - f.lowest).toNat * Nat.pow 2 (f.precision - 1) + q)

def withSign (negative : Bool) (magnitude : Nat) : Float :=
  Float.ofBits (UInt64.ofNat (if negative then Nat.pow 2 63 + magnitude else magnitude))

def ofRatio (negative : Bool) (num den : Nat) : Float :=
  if num = 0 then withSign negative 0
  else withSign negative (double.round num den)

def toSingle : Value → Value
  | .finite negative m e =>
      if m = 0 then .finite negative 0 single.lowest
      else
        let (num, den) := scaled m e
        single.value negative (single.round num den)
  | v => v

/-!
## Operations that round once

A finite number is an integer times a power of two, so a sum of products of such numbers can be
computed as an integer and rounded at the end.  Scaling by a power of two and splitting a
number into a fraction and an exponent are exact in the same way.
-/

def Value.parts? : Value → Option (Int × Int)
  | .finite negative m e => some (if negative then -(m : Int) else m, e)
  | _ => none

def ofScaled (m e : Int) : Float :=
  let (num, den) := scaled m.natAbs e
  ofRatio (m < 0) num den

/-- `x * y + z` with one rounding. -/
def fused (x y z : Float) : Float :=
  match (ofFloat x).parts?, (ofFloat y).parts?, (ofFloat z).parts? with
  | some (m, a), some (n, b), some (k, c) =>
      let low := min (a + b) c
      let sum := m * n * Nat.pow 2 (a + b - low).toNat + k * Nat.pow 2 (c - low).toNat
      if sum = 0 then x * y + z else ofScaled sum low
  | _, _, _ => x * y + z

/-- `x * 2 ^ k` with one rounding; zero, infinities and not-a-number stay as they are. -/
def scaleBy (x : Float) (k : Int) : Float :=
  match (ofFloat x).parts? with
  | some (m, e) => if m = 0 then x else ofScaled m (e + k)
  | none => x

/-- A number as a fraction of magnitude in `[1/2, 1)` and an exponent; zero has exponent 0. -/
def splitExponent (x : Float) : Float × Int :=
  match (ofFloat x).parts? with
  | some (m, e) =>
      if m = 0 then (x, 0)
      else
        let bits : Int := Nat.log2 m.natAbs + 1
        (ofScaled m (-bits), e + bits)
  | none => (x, 0)

def nearestInteger? (x : Float) : Option Int :=
  (ofFloat x).parts?.map fun (m, e) =>
    let (num, den) := scaled m.natAbs e
    if m < 0 then -(roundDiv num den : Int) else roundDiv num den

def wholePart (x : Float) : Nat :=
  match (ofFloat x).parts? with
  | some (m, e) =>
      let (num, den) := scaled m.natAbs e
      num / den
  | none => 0

def polynomial (x : Float) : List Float → Float
  | [] => 0
  | c :: rest => rest.foldl (fun acc k => acc * x + k) c

end KernelAlgebra.Number
