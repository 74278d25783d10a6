-- Numerals: runs of ASCII digits, and the whole numbers they denote.
namespace OfferDesk.Text

def digit? (c : Char) : Option Nat :=
  if '0' ≤ c ∧ c ≤ '9' then some (c.toNat - '0'.toNat) else none

def isDigit (c : Char) : Bool := (digit? c).isSome

/-- The value of a run of digits read after `value`, or nothing where a character is no digit. -/
def digitsFrom? (value : Nat) : List Char → Option Nat
  | [] => some value
  | c :: cs => (digit? c).bind fun d => digitsFrom? (value * 10 + d) cs

/-- A whole number of at most `limit`: one or more digits, with a plus sign allowed in front. -/
def numeral? (limit : Nat) (cs : List Char) : Option Nat :=
  let digits := match cs with
    | '+' :: rest => rest
    | _ => cs
  if digits.isEmpty then none
  else (digitsFrom? 0 digits).filter (· ≤ limit)

/-- A word of 32 bits, read as `numeral?`. -/
def word32? (cs : List Char) : Option UInt32 := (numeral? (UInt32.size - 1) cs).map Nat.toUInt32

/-- A word of 64 bits, read as `numeral?`. -/
def word64? (cs : List Char) : Option UInt64 := (numeral? (UInt64.size - 1) cs).map Nat.toUInt64

/-- The last `count` digits of a number, with zeros in front where it has fewer. -/
def lastDigits (n : Nat) : (count : Nat) → List Char
  | 0 => []
  | k + 1 => lastDigits (n / 10) k ++ [Nat.digitChar (n % 10)]

end OfferDesk.Text
