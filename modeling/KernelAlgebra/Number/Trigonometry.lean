import KernelAlgebra.Number.Binary
import KernelAlgebra.Number.Exponential

/-!
# Sine, cosine and tangent

An angle is reduced to an even count of eighths of a turn and a rest.  The count selects the
series and the sign; the rest is at most an eighth of a turn in magnitude.
-/

namespace KernelAlgebra.Number

/-!
## Angles in eighths of a turn

The trigonometric functions reduce an angle to the nearest even multiple of an eighth of a turn
and a rest.  A moderate angle is reduced with an eighth of a turn in three parts.  A large one
is multiplied by enough binary digits of its reciprocal.
-/

/-- The words of `4 / π` in base `2 ^ 64`; the first one is the integer part. -/
def reciprocalWords : List Nat :=
  [0x0000000000000001, 0x45f306dc9c882a53, 0xf84eafa3ea69bb81, 0xb6c52b3278872083,
   0xfca2c757bd778ac3, 0x6e48dc74849ba5c0, 0x0c925dd413a32439, 0xfc3bd63962534e7d,
   0xd1046bea5d768909, 0xd338e04d68befc82, 0x7323ac7306a673e9, 0x3908bf177bf25076,
   0x3ff12fffbc0b301f, 0xde5e2316b414da3e, 0xda6cfd9e4f96136e, 0x9e8c7ecd3cbfd45a,
   0xea4f758fd7cbe2f6, 0x7a0e73ef14a525d4, 0xd7f6bf623f1aba10, 0xac06608df8f6d757]

def reciprocalDigits : Nat :=
  reciprocalWords.foldl (fun n w => n * Nat.pow 2 64 + w) 0

/-- The 192 digits of `4 / π` that start `offset` places after the first one. -/
def reciprocalWindow (offset : Nat) : Nat :=
  reciprocalDigits / Nat.pow 2 (64 * reciprocalWords.length - 192 - offset) % Nat.pow 2 192

/-- An angle as a count of eighths of a turn, which is even, and a rest in radians. -/
structure Reduced where
  octant : Nat
  rest : Float

def eighthTurn : Float := 0.785398163397448309615660845819875721

def leadingZeros (n : Nat) : Nat :=
  if n = 0 then 64 else 63 - Nat.log2 n

/--
The fraction `word / 2 ^ 64` with 53 digits; the digits that the shift to the leading one
brings in are those at the top of the word below.
-/
def leadingFraction (word below : Nat) : Float :=
  let shift := leadingZeros word + 1
  let digits := word * Nat.pow 2 shift % Nat.pow 2 64 + below / Nat.pow 2 (64 - shift)
  withSign false ((1023 - shift) * Nat.pow 2 52 + digits / Nat.pow 2 12)

def reduceLarge (x : Float) : Reduced :=
  match (ofFloat x).parts? with
  | none => ⟨0, x⟩
  | some (m, e) =>
      let product :=
        reciprocalWindow (e + 61).toNat * m.natAbs / Nat.pow 2 64 % Nat.pow 2 128
      let octant := product / Nat.pow 2 125
      let fraction :=
        leadingFraction (product / Nat.pow 2 61 % Nat.pow 2 64) (product % Nat.pow 2 64)
      if octant % 2 = 1 then ⟨(octant + 1) % 8, (fraction - 1) * eighthTurn⟩
      else ⟨octant, fraction * eighthTurn⟩

def reduceModerate (x : Float) : Reduced :=
  let count := wholePart (x * 1.27323954473516268615107010698140931)
  let even := count + count % 2
  let k := Float.ofNat even
  ⟨even % 8,
    ((x - k * 7.85398125648498535156e-1) - k * 3.77489470793079817668e-8) -
      k * 2.69515142907905952645e-15⟩

def reduceAngle (x : Float) : Reduced :=
  if x ≥ 536870912.0 then reduceLarge x else reduceModerate x

/-! ## The functions -/

def sineSeries (z : Float) : Float :=
  let zz := z * z
  z + z * zz * polynomial zz
    [1.58962301576546568060e-10, -2.50507477628578072866e-8, 2.75573136213857245213e-6,
     -1.98412698295895385996e-4, 8.33333333332211858878e-3, -1.66666666666666307295e-1]

def cosineSeries (z : Float) : Float :=
  let zz := z * z
  1.0 - 0.5 * zz + zz * zz * polynomial zz
    [-1.13585365213876817300e-11, 2.08757008419747316778e-9, -2.75573141792967388112e-7,
     2.48015872888517045348e-5, -1.38888888888730564116e-3, 4.16666666666665929218e-2]

def tangentSeries (z : Float) : Float :=
  let zz := z * z
  if zz > 1e-14 then
    z + z * (zz * polynomial zz
        [-1.30936939181383734205e4, 1.15351664838587416140e6, -1.79565251976484877988e7] /
      polynomial zz
        [1.0, 1.36812963470692954678e4, -1.32089234440210967447e6, 2.50083801823357915839e7,
         -5.38695755929454629881e7])
  else z

def negateIf (b : Bool) (x : Float) : Float :=
  if b then -x else x

def sine (x : Float) : Float :=
  if x == 0 || x.isNaN then x
  else if x.isInf then notANumber
  else
    let r := reduceAngle x.abs
    let y := if r.octant % 4 = 2 then cosineSeries r.rest else sineSeries r.rest
    negateIf ((x < 0) != (3 < r.octant)) y

def cosine (x : Float) : Float :=
  if x.isNaN || x.isInf then notANumber
  else
    let r := reduceAngle x.abs
    let y := if r.octant % 4 = 2 then sineSeries r.rest else cosineSeries r.rest
    negateIf ((3 < r.octant) != (r.octant % 4 = 2)) y

def tangent (x : Float) : Float :=
  if x == 0 || x.isNaN then x
  else if x.isInf then notANumber
  else
    let r := reduceAngle x.abs
    let y := tangentSeries r.rest
    negateIf (x < 0) (if r.octant % 4 = 2 then -1 / y else y)

end KernelAlgebra.Number
