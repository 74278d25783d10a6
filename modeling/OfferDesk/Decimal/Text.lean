-- Decimals as text: how they are read, plainly or with an exponent, and how they are written.
import OfferDesk.Decimal.Basic
import OfferDesk.Text.Numeral

namespace OfferDesk.Decimal

open Text (digit? isDigit lastDigits numeral?)

/-! ## Reading -/

/-- Settles the first digit that no longer fits: from five on it raises the mantissa by one. A
mantissa that leaves its range by this gives up its last place, or the number if it has none. -/
def settle (mantissa scale digit : Nat) : Option (Nat × Nat) :=
  if digit < 5 then some (mantissa, scale)
  else if mantissa < maxMantissa then some (mantissa + 1, scale)
  else if scale = 0 then none
  else some ((mantissa + 5) / 10, scale - 1)

/-- Reads digits, with at most one point between them and underscores anywhere after the first
digit. Digits after the point are taken while they fit; the next one rounds, and only digits and
underscores may follow it. `started` says whether a digit was seen, `point` whether the point
was. -/
def readDigits (mantissa scale : Nat) (point started : Bool) : List Char → Option (Nat × Nat)
  | [] => if started then some (mantissa, scale) else none
  | c :: cs =>
    match digit? c with
    | some d =>
      let next := mantissa * 10 + d
      if point then
        if scale < maxScale ∧ next ≤ maxMantissa then readDigits next (scale + 1) point true cs
        else if cs.all fun c => isDigit c || c == '_' then settle mantissa scale d
        else none
      else if next ≤ maxMantissa then readDigits next scale point true cs
      else none
    | none =>
      if c = '.' ∧ point = false then readDigits mantissa scale true started cs
      else if c = '_' ∧ started = true then readDigits mantissa scale point started cs
      else none

/-- The sign in front of a number, as whether it is negative, and what follows. -/
def takeSign : List Char → Bool × List Char
  | '-' :: cs => (true, cs)
  | '+' :: cs => (false, cs)
  | cs => (false, cs)

/-- A number in plain notation. It keeps the places it is written with. -/
def read? (cs : List Char) : Option Decimal := do
  let (negative, digits) := takeSign cs
  let (mantissa, scale) ← readDigits 0 0 false false digits
  ofParts? (if negative then -(mantissa : Int) else mantissa) scale

/-- The number scaled by a power of ten. A negative exponent moves the point as long as there
are places for it; one of at least zero takes places away first and then gives a whole
number. -/
def shift? (a : Decimal) (negative : Bool) (exponent : Nat) : Option Decimal :=
  if negative then
    if exponent ≤ maxScale then ofParts? a.mantissa (a.scale + exponent) else none
  else if exponent ≤ a.scale then ofParts? a.mantissa (a.scale - exponent)
  else if exponent ≤ maxScale then ofInt? (a.mantissa * pow10 (exponent - a.scale))
  else none

def isExponentMark (c : Char) : Bool := c == 'e' || c == 'E'

/-- A number in scientific notation: a plain number, a mark, and an exponent that fits 32
bits. -/
def readScientific? (cs : List Char) : Option Decimal := do
  let base ← read? (cs.takeWhile (!isExponentMark ·))
  match cs.dropWhile (!isExponentMark ·) with
  | _ :: '-' :: exponent => base.shift? true (← numeral? (UInt32.size - 1) exponent)
  | _ :: exponent => base.shift? false (← numeral? (UInt32.size - 1) exponent)
  | [] => none

/-! ## Writing -/

/-- The number as it is carried, with all its places. -/
def chars (a : Decimal) : List Char :=
  let n := a.mantissa.natAbs
  let whole := Nat.toDigits 10 (n / pow10 a.scale)
  let sign := if a.mantissa < 0 then ['-'] else []
  if a.scale = 0 then sign ++ whole else sign ++ whole ++ '.' :: lastDigits n a.scale

/-- The number as it is carried, with all its places. -/
def text (a : Decimal) : String := String.ofList a.chars

def plainText (a : Decimal) : String := a.reduce.text

end OfferDesk.Decimal
