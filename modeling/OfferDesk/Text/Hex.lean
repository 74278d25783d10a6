-- Hexadecimal text: each byte as two digits, and the bytes of a text.
namespace OfferDesk.Text

/-- The value of a hexadecimal digit of either case. -/
def hexDigit? (c : Char) : Option Nat :=
  if '0' ≤ c ∧ c ≤ '9' then some (c.toNat - '0'.toNat)
  else if 'A' ≤ c ∧ c ≤ 'F' then some (c.toNat - 'A'.toNat + 10)
  else if 'a' ≤ c ∧ c ≤ 'f' then some (c.toNat - 'a'.toNat + 10)
  else none

def isHexDigit (c : Char) : Bool := (hexDigit? c).isSome

/-- The upper-case digit of a value below sixteen. -/
def hexDigit (n : Nat) : Char := (Nat.digitChar n).toUpper

def bytes (cs : List Char) : List UInt8 := cs.flatMap String.utf8EncodeChar

/-- Bytes written with two upper-case digits each. -/
def hex : List UInt8 → List Char
  | [] => []
  | b :: bs => hexDigit (b.toNat / 16) :: hexDigit (b.toNat % 16) :: hex bs

/-- The bytes that pairs of digits denote; nothing for a lone digit or another character. -/
def unhex? : List Char → Option (List UInt8)
  | [] => some []
  | [_] => none
  | a :: b :: cs => do
    let high ← hexDigit? a
    let low ← hexDigit? b
    let rest ← unhex? cs
    some (Nat.toUInt8 (high * 16 + low) :: rest)

/-- The text in upper case, ASCII letters only. -/
def upper (cs : List Char) : List Char := cs.map Char.toUpper

def sameUpToCase (a b : List Char) : Bool := upper a == upper b

/-- A visible ASCII character. -/
def isGraphic (b : UInt8) : Bool := 0x21 ≤ b && b ≤ 0x7e

end OfferDesk.Text
