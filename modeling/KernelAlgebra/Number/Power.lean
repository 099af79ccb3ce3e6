import KernelAlgebra.Number.Binary
import KernelAlgebra.Number.Exponential

/-!
# Element arithmetic and powers

A power is the product of two parts: the exponential of the fraction of the exponent times the
logarithm of the base, and the power with the whole part of the exponent by repeated squaring.
The squaring keeps a fraction and an exponent of two apart.
-/

namespace KernelAlgebra.Number

/-!
## Element arithmetic

The machine needs a few operations besides those of `Float`.
-/

/--
The remainder with the sign of the dividend, computed exactly.  It is undefined for an
infinite dividend and for a zero divisor, and an infinite divisor changes nothing.
-/
def remainder (x y : Float) : Float :=
  match ofFloat x, ofFloat y with
  | .finite negative m e, .finite _ n k =>
      if n = 0 then Float.ofBits 0x7FF8000000000001
      else
        let low := min e k
        let r := (m * Nat.pow 2 (e - low).toNat) % (n * Nat.pow 2 (k - low).toNat)
        let (num, den) := scaled r low
        ofRatio negative num den
  | .finite .., .infinite _ => x
  | _, _ => Float.ofBits 0x7FF8000000000001

def isNegative (x : Float) : Bool :=
  Nat.pow 2 63 ≤ x.toBits.toNat

/-- The smaller number: negative infinity before not-a-number, and `-0` before `0`. -/
def minimum (x y : Float) : Float :=
  if (x.isInf && isNegative x) || (y.isInf && isNegative y) then withSign true double.infinity
  else if x.isNaN || y.isNaN then Float.ofBits 0x7FF8000000000001
  else if x == 0 && x == y then (if isNegative x then x else y)
  else if x < y then x else y

/-- The larger number: infinity before not-a-number, and `0` before `-0`. -/
def maximum (x y : Float) : Float :=
  if (x.isInf && !isNegative x) || (y.isInf && !isNegative y) then withSign false double.infinity
  else if x.isNaN || y.isNaN then Float.ofBits 0x7FF8000000000001
  else if x == 0 && x == y then (if isNegative x then y else x)
  else if x > y then x else y

def signum (x : Float) : Float :=
  if x > 0 then 1 else if x < 0 then -1 else 0

def ofTruth (b : Bool) : Float :=
  if b then 1 else 0

/-! ## Powers -/

/-- A number `fraction * 2 ^ exponent`. -/
structure Factor where
  fraction : Float
  exponent : Int

/--
`acc * base ^ i` by repeated squaring.  When the exponent of the base leaves the range in which
a product could still be finite, that exponent alone settles the result.
-/
def powerOfWhole (i : Nat) (base acc : Factor) : Factor :=
  if h : i = 0 then acc
  else if base.exponent < -4096 || 4096 < base.exponent then
    { acc with exponent := acc.exponent + base.exponent }
  else
    let acc :=
      if i % 2 = 1 then ⟨acc.fraction * base.fraction, acc.exponent + base.exponent⟩ else acc
    let square := base.fraction * base.fraction
    let next : Factor :=
      if square < 0.5 then ⟨square + square, 2 * base.exponent - 1⟩
      else ⟨square, 2 * base.exponent⟩
    powerOfWhole (i / 2) next acc
termination_by i
decreasing_by omega

def finitePower (x y : Float) : Float :=
  let magnitude := y.abs
  let whole := magnitude.floor
  let part := magnitude - whole
  if part != 0 && x < 0 then notANumber
  else if whole ≥ 9223372036854775808.0 then
    if x == -1 then 1
    else if (x.abs < 1) == (y > 0) then 0
    else infinity
  else
    let (part, count) :=
      if part > 0.5 then (part - 1, wholePart whole + 1) else (part, wholePart whole)
    let start := if part != 0 then exponential (part * logarithm x) else 1
    let (fraction, exponent) := splitExponent x
    let r := powerOfWhole count ⟨fraction, exponent⟩ ⟨start, 0⟩
    if y < 0 then scaleBy (1 / r.fraction) (-r.exponent)
    else scaleBy r.fraction r.exponent

def isOddInteger (x : Float) : Bool :=
  x.abs.floor == x.abs && x.abs < 9007199254740992.0 && wholePart x % 2 == 1

def zeroPower (x y : Float) : Float :=
  if y < 0 then (if isNegative x && isOddInteger y then -infinity else infinity)
  else if isNegative x && isOddInteger y then x
  else 0

def power (x y : Float) : Float :=
  if y == 0 || x == 1 then 1
  else if y == 1 then x
  else if x.isNaN || y.isNaN then notANumber
  else if x == 0 then zeroPower x y
  else if y.isInf then
    if x == -1 then 1
    else if (x.abs < 1) == (y > 0) then 0
    else infinity
  else if x.isInf then
    if x < 0 then zeroPower (1 / x) (-y)
    else if y < 0 then 0
    else infinity
  else if y == 0.5 then x.sqrt
  else if y == -0.5 then 1 / x.sqrt
  else finitePower x y

end KernelAlgebra.Number
