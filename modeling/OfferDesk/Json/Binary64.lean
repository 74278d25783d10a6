-- Floating numbers of 64 bits in exact arithmetic: rounding a fraction to the nearest one, and
-- the fewest decimal digits that tell one from its neighbours.
import OfferDesk.Decimal.Power
import OfferDesk.Decimal.Quotient

namespace OfferDesk.Json

/-- A finite floating number of 64 bits: `mantissa * 2 ^ exponent` with its sign. The mantissa
has at most 53 bits, and exactly 53 unless the exponent is the least one, -1074. -/
structure Binary64 where
  negative : Bool
  mantissa : Nat
  exponent : Int
deriving DecidableEq, Inhabited

namespace Binary64

def leastExponent : Int := -1074

/-- `n / d` times a power of two, as a fraction. -/
def scaled (n d : Nat) (power : Int) : Nat × Nat :=
  if 0 ≤ power then (n * pow2 power.toNat, d) else (n, d * pow2 (-power).toNat)

/-- The exponent at which the nearest number to `n / d` is written. -/
def exponentFor (n d : Nat) : Int :=
  let guess : Int := (Nat.log2 n : Int) - Nat.log2 d - 52
  let (sn, sd) := scaled n d (-guess)
  max (if sn < pow2 52 * sd then guess - 1 else guess) leastExponent

/-- The non-negative number nearest to `n / d`, a tie going to the even mantissa; nothing past
the largest finite number. -/
def nearest? (n d : Nat) : Option Binary64 :=
  if n = 0 then some ⟨false, 0, leastExponent⟩
  else
    let exponent := exponentFor n d
    let (sn, sd) := scaled n d (-exponent)
    let mantissa := (Quotient.halfEven sn sd).toNat
    let (mantissa, exponent) :=
      if mantissa = pow2 53 then (pow2 52, exponent + 1) else (mantissa, exponent)
    if exponent ≤ 971 then some ⟨false, mantissa, exponent⟩ else none

def fraction (x : Binary64) : Nat × Nat := scaled x.mantissa 1 x.exponent

/-- The product, rounded to nearest. Signs are left out of account. -/
def mul? (x y : Binary64) : Option Binary64 :=
  nearest? (x.fraction.1 * y.fraction.1) (x.fraction.2 * y.fraction.2)

/-- The quotient by a non-zero number, rounded to nearest. Signs are left out of account. -/
def div? (x y : Binary64) : Option Binary64 :=
  nearest? (x.fraction.1 * y.fraction.2) (x.fraction.2 * y.fraction.1)

/-! ## Decimal digits -/

/-- Whether the fraction `n / d` rounds to the number: it lies between the middles to the two
neighbours, and the middles themselves belong to an even mantissa. -/
def covers (x : Binary64) (n d : Nat) : Bool :=
  let narrow := x.mantissa = pow2 52 ∧ x.exponent ≠ leastExponent
  let low := if narrow then 4 * x.mantissa - 1 else 4 * x.mantissa - 2
  let (ln, ld) := scaled low 4 x.exponent
  let (hn, hd) := scaled (4 * x.mantissa + 2) 4 x.exponent
  if x.mantissa % 2 = 0 then ln * d ≤ n * ld ∧ n * hd ≤ hn * d
  else ln * d < n * ld ∧ n * hd < hn * d

/-- `digits * 10 ^ power` as a fraction. -/
def decimalFraction (digits : Nat) (power : Int) : Nat × Nat :=
  if 0 ≤ power then (digits * pow10 power.toNat, 1) else (digits, pow10 (-power).toNat)

/-- The decimal point of the number: the least power of ten above it. -/
def pointOf (x : Binary64) : Int :=
  let (n, d) := x.fraction
  let guess : Int := (Nat.toDigits 10 n).length - (Nat.toDigits 10 d).length
  let (tn, td) := decimalFraction 1 guess
  if n * td < tn * d then guess else guess + 1

/-- Looks for a decimal with `count` digits that rounds to the number; of two, the nearer. -/
def digitsAt? (x : Binary64) (point : Int) (count : Nat) : Option (Nat × Int) :=
  let power := point - count
  let (n, d) := x.fraction
  let (sn, sd) := if 0 ≤ power then (n, d * pow10 power.toNat) else (n * pow10 (-power).toNat, d)
  let below := sn / sd
  let fits (digits : Nat) : Bool :=
    let (dn, dd) := decimalFraction digits power
    digits ≠ 0 && x.covers dn dd
  match fits below, fits (below + 1) with
  | true, true => some ((Quotient.halfEven sn sd).toNat, power)
  | true, false => some (below, power)
  | false, true => some (below + 1, power)
  | false, false => none

/-- The fewest digits that round to the number, with the power of ten that they count. -/
def shortest (x : Binary64) : Nat × Int :=
  if x.mantissa = 0 then (0, 0)
  else ((List.range 17).findSome? fun k => digitsAt? x x.pointOf (k + 1)).getD (x.mantissa, 0)

/-- The digits without trailing zeros, and the power of ten raised to match. -/
def dropZeros (digits : Nat) (power : Int) : (fuel : Nat) → Nat × Int
  | 0 => (digits, power)
  | fuel + 1 =>
    if digits ≠ 0 ∧ digits % 10 = 0 then dropZeros (digits / 10) (power + 1) fuel
    else (digits, power)

/-- The shortest digits, with no zero at their end. -/
def digits (x : Binary64) : Nat × Int :=
  let (d, power) := x.shortest
  dropZeros d power 20

/-- The number in plain notation, however many zeros that takes. -/
def plainChars (x : Binary64) : List Char :=
  let (d, power) := x.digits
  let sign := if x.negative then ['-'] else []
  let ds := Nat.toDigits 10 d
  if 0 ≤ power then sign ++ ds ++ List.replicate (if d = 0 then 0 else power.toNat) '0'
  else
    let places := (-power).toNat
    if ds.length ≤ places then sign ++ ['0', '.'] ++ List.replicate (places - ds.length) '0' ++ ds
    else sign ++ ds.take (ds.length - places) ++ '.' :: ds.drop (ds.length - places)

/-- The number as JSON writes it: plainly from five places after the point to sixteen digits
before it, and with an exponent outside. A whole number ends in `.0`. -/
def jsonChars (x : Binary64) : List Char :=
  let (d, power) := x.digits
  let sign := if x.negative then ['-'] else []
  let ds := Nat.toDigits 10 d
  let point := ds.length + power
  if 0 ≤ power ∧ point ≤ 16 then x.plainChars ++ ['.', '0']
  else if -5 < point ∧ point ≤ 16 then x.plainChars
  else
    let tail := if ds.length = 1 then [] else '.' :: ds.drop 1
    let exponent := point - 1
    let exponentSign := if exponent < 0 then ['-'] else []
    sign ++ ds.take 1 ++ tail ++ 'e' :: exponentSign ++ Nat.toDigits 10 exponent.natAbs

end Binary64

end OfferDesk.Json
