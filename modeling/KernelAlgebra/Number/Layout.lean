import KernelAlgebra.Number.Binary

/-!
# The written forms of numbers

Numbers are written with their shortest digits, positionally when the exponent of ten lies
between -4 and 5 and with an exponent otherwise.  On request a fixed number of significant
digits is written instead, always with an exponent.
-/

namespace KernelAlgebra.Number

/-!
## Decimal digits of binary numbers

The shortest text of a number has the fewest digits that read back as it; of two such texts
the nearer one is taken.  The numbers that read back as `m * 2 ^ e` form an interval around
it, which contains its ends exactly when `m` is even.
-/

structure Digits where
  digits : List Nat
  exponent : Int
  deriving DecidableEq, Repr

def digitCount (n : Nat) : Nat :=
  (Nat.toDigits 10 n).length

def leadingDigit (num den : Nat) : Int :=
  if den ≤ num then (digitCount (num / den) : Int) - 1
  else
    let inverse := (den + num - 1) / num
    Int.neg (digitCount (inverse - 1))

def overPower (num den : Nat) (power : Int) : Nat × Nat :=
  if 0 ≤ power then (num, den * Nat.pow 10 power.toNat)
  else (num * Nat.pow 10 (-power).toNat, den)

def decimalDigits (n : Nat) : List Nat :=
  (Nat.toDigits 10 n).map (fun c => c.toNat - 48)

def dropTrailingZeros (ds : List Nat) : List Nat :=
  (ds.reverse.dropWhile (· == 0)).reverse

/-- The ends of the interval that reads back as `m * 2 ^ e`, in quarters of the last bit. -/
def Format.quarters (f : Format) (m : Nat) (e : Int) : Nat × Nat :=
  (if m = Nat.pow 2 (f.precision - 1) && f.lowest < e then 4 * m - 1 else 4 * m - 2, 4 * m + 2)

/--
The grid point among `q` and `q + 1` that lies within the interval, the nearer one if both
do.  All four numbers are multiples of the same `1 / den`.
-/
def nearestWithin (closed : Bool) (value low high den : Nat) : Option Nat :=
  let q := value / den
  let inside := fun (k : Nat) =>
    if closed then low ≤ k * den && k * den ≤ high else low < k * den && k * den < high
  let below := value - q * den
  let above := (q + 1) * den - value
  if inside q && inside (q + 1) then
    if below < above || (below = above && q % 2 = 0) then some q else some (q + 1)
  else if inside q then some q
  else if inside (q + 1) then some (q + 1)
  else none

def shortestFrom (closed : Bool) (value low high : Nat) (e lead : Int) :
    Nat → Nat → Digits
  | 0, count =>
      let unit := lead + 1 - count
      let (num, den) := scaled value e
      let (a, b) := overPower num den unit
      ⟨decimalDigits (roundDiv a b), lead⟩
  | fuel + 1, count =>
      let unit := lead + 1 - count
      let scale := fun (n : Nat) =>
        let (num, den) := scaled n e
        overPower num den unit
      let (v, den) := scale value
      match nearestWithin closed v (scale low).1 (scale high).1 den with
      | some k =>
          let ds := decimalDigits k
          ⟨dropTrailingZeros ds, lead + (ds.length - count : Nat)⟩
      | none => shortestFrom closed value low high e lead fuel (count + 1)

def Format.shortest (f : Format) (m : Nat) (e : Int) : Digits :=
  let (low, high) := f.quarters m e
  let (num, den) := scaled m e
  shortestFrom (m % 2 == 0) (4 * m) low high (e - 2) (leadingDigit num den) 17 1

def roundedDigits (count num den : Nat) : Digits :=
  let lead := leadingDigit num den
  let (a, b) := overPower num den (lead + 1 - count)
  let ds := decimalDigits (roundDiv a b)
  ⟨ds.take count, lead + (ds.length - count : Nat)⟩

/-! ## Written numbers -/

def digitText (ds : List Nat) : String :=
  String.ofList (ds.map fun d => Char.ofNat (48 + d))

def exponentText (e : Int) : String :=
  let n := e.natAbs
  (if e < 0 then "e-" else "e+") ++ (if n < 10 then "0" else "") ++ toString n

def scientific (d : Digits) : String :=
  match d.digits with
  | [] => "0"
  | [lead] => digitText [lead] ++ exponentText d.exponent
  | lead :: more => digitText [lead] ++ "." ++ digitText more ++ exponentText d.exponent

def positional (d : Digits) : String :=
  if d.exponent < 0 then
    "0." ++ digitText (List.replicate ((-d.exponent).toNat - 1) 0 ++ d.digits)
  else
    let whole := d.exponent.toNat + 1
    let padded := d.digits ++ List.replicate (whole - d.digits.length) 0
    let fraction := padded.drop whole
    digitText (padded.take whole) ++ (if fraction.isEmpty then "" else "." ++ digitText fraction)

def general (d : Digits) : String :=
  if d.exponent < -4 || 6 ≤ d.exponent then scientific d else positional d

def signText (negative : Bool) : String :=
  if negative then "-" else ""

def infinityText (negative : Bool) : String :=
  if negative then "-Inf" else "+Inf"

def Format.text (f : Format) : Value → String
  | .nan => "NaN"
  | .infinite negative => infinityText negative
  | .finite negative 0 _ => signText negative ++ "0"
  | .finite negative m e => signText negative ++ general (f.shortest m e)

def text (x : Float) : String :=
  double.text (ofFloat x)

def singleText (x : Float) : String :=
  single.text (toSingle (ofFloat x))

def textWithDigits (count : Nat) (x : Float) : String :=
  match ofFloat x with
  | .nan => "NaN"
  | .infinite negative => infinityText negative
  | .finite negative 0 _ =>
      signText negative ++ scientific ⟨List.replicate count 0, 0⟩
  | .finite negative m e =>
      let (num, den) := scaled m e
      signText negative ++ scientific (roundedDigits count num den)

end KernelAlgebra.Number
