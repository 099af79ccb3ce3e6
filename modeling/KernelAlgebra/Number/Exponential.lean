import KernelAlgebra.Number.Binary

/-!
# Exponential and logarithm

The exponential takes out the nearest multiple of the logarithm of two, evaluates a Taylor
polynomial at a sixteenth of the rest, squares four times and scales by a power of two.  The
logarithm splits the number into a fraction near one and an exponent, and evaluates the series
in `f / (2 + f)` for the fraction `1 + f`.
-/

namespace KernelAlgebra.Number

def notANumber : Float := Float.ofBits 0x7FF8000000000001

def infinity : Float := withSign false double.infinity

/-! ## The exponential -/

/-- The reciprocals of factorials, that of eight first and that of one last. -/
def taylorCoefficients : List Float :=
  [2.4801587301587301587e-5, 1.9841269841269841270e-4, 1.3888888888888888889e-3,
   8.3333333333333333333e-3, 4.1666666666666666667e-2, 1.6666666666666666667e-1, 0.5, 1.0]

def logTwoUpper : Float := 0.69314718055966295651160180568695068359375

def logTwoLower : Float := 0.28235290563031577122588448175013436025525412068e-12

/-- `e ^ r` from `e ^ (r / 16) - 1` by four squarings: `(1 + t) ^ 2 - 1 = t * (t + 2)`. -/
def squareFourTimes (t : Float) : Float :=
  let t := t * (t + 2)
  let t := t * (t + 2)
  let t := t * (t + 2)
  fused t (t + 2) 1

def reducedExponential (x : Float) (n : Int) : Float :=
  let k := Float.ofInt n
  let r := fused (-k) logTwoUpper x
  let r := fused (-k) logTwoLower r
  let r := r * 0.0625
  let p :=
    match taylorCoefficients with
    | [] => 1
    | c :: rest => rest.foldl (fun acc k => fused acc r k) c
  squareFourTimes (r * p)

/--
A result whose power of two has exponent 1024 counts as infinite, and one below -1075 as
zero.
-/
def exponential (x : Float) : Float :=
  if x.isNaN then x
  else if x.isInf then (if x > 0 then x else 0)
  else if x > 7.09782712893384e+02 then infinity
  else
    match nearestInteger? (x * 1.4426950408889634073599246810018920) with
    | some n =>
        if 1024 ≤ n then infinity
        else if n < -1075 then 0
        else scaleBy (reducedExponential x n) n
    | none => 0

/-! ## The logarithm -/

/--
The fraction bits with the exponent of `[1/2, 1)`, and the exponent field less that exponent.
A number below the normal range is read as if it had the leading bit of a normal one.
-/
def fieldSplit (x : Float) : Float × Int :=
  let bits := x.toBits.toNat % Nat.pow 2 63
  let field : Int := (bits / Nat.pow 2 52 : Nat)
  (withSign false (0x3FE * Nat.pow 2 52 + bits % Nat.pow 2 52), field - 0x3FE)

/-- The series of the logarithm of `1 + f`, for an argument `1 + f` times `2 ^ k`. -/
def logSeries (f k : Float) : Float :=
  let s := f / (2 + f)
  let s2 := s * s
  let s4 := s2 * s2
  let odd := s2 * polynomial s4
    [1.479819860511658591e-01, 1.818357216161805012e-01, 2.857142874366239149e-01,
     6.666666666666735130e-01]
  let even := s4 * polynomial s4
    [1.531383769920937332e-01, 2.222219843214978396e-01, 3.999999999940941908e-01]
  let r := odd + even
  let half := 0.5 * f * f
  k * 6.93147180369123816490e-01 -
    ((half - (s * (half + r) + k * 1.90821492927058770002e-10)) - f)

def logarithm (x : Float) : Float :=
  if x.isNaN then x
  else if x == 0 then -infinity
  else if x < 0 then notANumber
  else if x.isInf then x
  else
    let (fraction, exponent) := fieldSplit x
    if fraction < 7.07106781186547524401e-01 then
      logSeries (fraction * 2 - 1) (Float.ofInt (exponent - 1))
    else logSeries (fraction - 1) (Float.ofInt exponent)

end KernelAlgebra.Number
