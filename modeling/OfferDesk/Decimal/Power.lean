-- Powers of ten and of two, by which a point moves to the left or right.
namespace OfferDesk

/-- Ten to a power: what a unit is worth so many decimal places further left. -/
def pow10 (n : Nat) : Nat := Nat.pow 10 n

def pow2 (n : Nat) : Nat := Nat.pow 2 n

theorem pow10_pos (n : Nat) : 0 < pow10 n := Nat.pow_pos (by decide)

theorem pow10_add (m n : Nat) : pow10 (m + n) = pow10 m * pow10 n := Nat.pow_add 10 m n

end OfferDesk
