-- Decimal numbers of bounded size: a whole mantissa of at most 96 bits and at most 28 places
-- after the point. Every operation takes the exact result and rounds it half to even at the
-- largest scale at which it fits; where no scale fits there is no result.
import OfferDesk.Decimal.Power
import OfferDesk.Decimal.Quotient

namespace OfferDesk

/-- The largest mantissa: the largest number of 96 bits. -/
def maxMantissa : Nat := 79228162514264337593543950335

/-- The most places after the point. -/
def maxScale : Nat := 28

/-- The number `mantissa / 10 ^ scale`. The scale only shows when a number is written as it is
carried; numbers are compared by value. -/
structure Decimal where
  mantissa : Int
  scale : Nat
  mantissa_le : mantissa.natAbs ≤ maxMantissa := by decide
  scale_le : scale ≤ maxScale := by decide
deriving DecidableEq

namespace Decimal

def toRat (a : Decimal) : Rat := mkRat a.mantissa (pow10 a.scale)

/-- The decimal with these parts, if they are in range. -/
def ofParts? (mantissa : Int) (scale : Nat) : Option Decimal :=
  if h : mantissa.natAbs ≤ maxMantissa ∧ scale ≤ maxScale then
    some ⟨mantissa, scale, h.1, h.2⟩
  else none

/-- The decimal nearest to `n / d`: at the largest scale up to `scale` at which it fits. -/
def nearest? (n : Int) (d : Nat) : (scale : Nat) → Option Decimal
  | 0 => ofParts? (Quotient.halfEven n d) 0
  | s + 1 => ofParts? (Quotient.halfEven (n * pow10 (s + 1)) d) (s + 1) <|> nearest? n d s

def zero : Decimal := ⟨0, 0, by decide, by decide⟩
def one : Decimal := ⟨1, 0, by decide, by decide⟩
def two : Decimal := ⟨2, 0, by decide, by decide⟩

def ofInt? (n : Int) : Option Decimal := ofParts? n 0

/-- A word of 64 bits is always in range. -/
def ofWord (n : UInt64) : Decimal :=
  ⟨n.toNat, 0, by have := n.toNat_lt; simp only [Int.natAbs_natCast, maxMantissa]; omega,
    by decide⟩

/-- `10 ^ -places`, with the places cut off at the largest scale. -/
def tenth (places : Nat) : Decimal :=
  ⟨1, min places maxScale, by decide, Nat.min_le_right ..⟩

instance : Inhabited Decimal := ⟨zero⟩

/-! ## Order -/

instance : LE Decimal := ⟨fun a b => a.mantissa * pow10 b.scale ≤ b.mantissa * pow10 a.scale⟩
instance : LT Decimal := ⟨fun a b => a.mantissa * pow10 b.scale < b.mantissa * pow10 a.scale⟩
instance (a b : Decimal) : Decidable (a ≤ b) := inferInstanceAs (Decidable (_ ≤ (_ : Int)))
instance (a b : Decimal) : Decidable (a < b) := inferInstanceAs (Decidable (_ < (_ : Int)))

def compare (a b : Decimal) : Ordering :=
  Ord.compare (a.mantissa * pow10 b.scale) (b.mantissa * pow10 a.scale)

def isZero (a : Decimal) : Bool := a.mantissa == 0

def isPositive (a : Decimal) : Bool := decide (0 < a.mantissa)

/-- The number, with all below zero raised to zero. -/
def floorAtZero (a : Decimal) : Decimal := if a.isPositive then a else zero

/-! ## Arithmetic -/

def neg (a : Decimal) : Decimal :=
  ⟨-a.mantissa, a.scale, by rw [Int.natAbs_neg]; exact a.mantissa_le, a.scale_le⟩

/-- Drops trailing zeros after the point. -/
def reduceAt (m : Int) (hm : m.natAbs ≤ maxMantissa) : (s : Nat) → s ≤ maxScale → Decimal
  | 0, h => ⟨m, 0, hm, h⟩
  | s + 1, h =>
    if m % 10 = 0 then reduceAt (m / 10) (by omega) s (by omega) else ⟨m, s + 1, hm, h⟩

/-- The same number with no trailing zeros after the point. -/
def reduce (a : Decimal) : Decimal := reduceAt a.mantissa a.mantissa_le a.scale a.scale_le

/-- The sum. A zero leaves the other number as it is written. -/
def add? (a b : Decimal) : Option Decimal :=
  if a.isZero then some b
  else if b.isZero then some a
  else nearest? (a.mantissa * pow10 b.scale + b.mantissa * pow10 a.scale)
    (pow10 (a.scale + b.scale)) (max a.scale b.scale)

def sub? (a b : Decimal) : Option Decimal := a.add? b.neg

/-- The product, written with the places of both numbers; a zero gives a plain zero. -/
def mul? (a b : Decimal) : Option Decimal :=
  if a.isZero || b.isZero then some zero
  else nearest? (a.mantissa * b.mantissa) (pow10 (a.scale + b.scale))
    (min maxScale (a.scale + b.scale))

/-- The quotient, or nothing for a zero divisor. A quotient of the mantissas that comes out
whole keeps the places that are left; any other is written without trailing zeros. -/
def div? (a b : Decimal) : Option Decimal :=
  if b.isZero then none
  else if a.isZero then some zero
  else if b.scale ≤ a.scale ∧ a.mantissa % b.mantissa = 0 then
    ofParts? (a.mantissa / b.mantissa) (a.scale - b.scale)
  else
    (nearest? (a.mantissa * pow10 b.scale * b.mantissa.sign) (pow10 a.scale * b.mantissa.natAbs)
      maxScale).map reduce

/-! ## Rounding to fewer places -/

/-- Cuts the number to `places` places with the given rounding of a quotient. A number that has
no more places stays as it is. -/
def cut (round : Int → Nat → Int)
    (hround : ∀ n {d}, 0 < d → 2 * (round n d * d - n).natAbs ≤ d)
    (a : Decimal) (places : Nat) : Decimal :=
  if h : places < a.scale then
    ⟨round a.mantissa (pow10 (a.scale - places)), places,
      Nat.le_trans (Quotient.natAbs_le_of_near (pow10_pos _)
        (hround a.mantissa (pow10_pos _))) a.mantissa_le,
      Nat.le_trans (Nat.le_of_lt h) a.scale_le⟩
  else a

/-- Rounded to `places` places, a tie to the even neighbour. -/
def roundEven (a : Decimal) (places : Nat) : Decimal :=
  a.cut Quotient.halfEven (fun n _ => Quotient.halfEven_near n) places

/-- Rounded to `places` places, a tie away from zero. -/
def roundAway (a : Decimal) (places : Nat) : Decimal :=
  a.cut Quotient.halfAway (fun n _ => Quotient.halfAway_near n) places

/-- The largest whole number that is not above this one. -/
def floor (a : Decimal) : Decimal :=
  ⟨a.mantissa / (pow10 a.scale : Int), 0,
    Nat.le_trans (Int.natAbs_ediv_le_natAbs ..) a.mantissa_le, by decide⟩

/-- The largest multiple of `step` that is not above the number. A step of zero or less changes
nothing, and so does one that the number has no digits below: its quotient by the step is too
large to hold. -/
def floorBy (a step : Decimal) : Decimal :=
  if step.isPositive then
    match (a.div? step).bind fun units => units.floor.mul? step with
    | some floored => floored.reduce
    | none => a
  else a

/-! ## Significant digits -/

/-- The count of digits before the point, less one; below one it counts the zeros after the
point down from zero. -/
def magnitude (a : Decimal) : Int := (Nat.toDigits 10 a.mantissa.natAbs).length - 1 - a.scale

/-- Rounded to so many significant digits. Digits after the point are rounded away from zero in
a tie; in a number with more digits before the point the ones to go are rounded half to even.
There is no result where a power of ten beyond 18 is to be cut off or the rounded number does
not fit. -/
def roundSignificant? (a : Decimal) (digits : Nat) : Option Decimal :=
  if a.isZero then some a
  else
    let places : Int := digits - 1 - a.magnitude
    if 0 ≤ places then some (a.roundAway (min places.toNat maxScale))
    else if places < -18 then none
    else do
      let unit ← ofInt? (pow10 (-places).toNat)
      let units ← a.div? unit
      (units.roundEven 0).mul? unit

end Decimal

end OfferDesk
