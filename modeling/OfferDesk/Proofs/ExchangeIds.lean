-- An exchange id reads back from its text. Its two numbers are written in decimal digits, and
-- none of these is the dash between them.
import Mathlib.Data.List.Basic
import OfferDesk.Order.Basic

namespace OfferDesk

/-! ## Numerals -/

namespace Text

theorem digit?_digitChar {d : Nat} (h : d < 10) : digit? (Nat.digitChar d) = some d := by
  revert d
  decide

theorem digitsFrom?_append (value : Nat) (cs ds : List Char) :
    digitsFrom? value (cs ++ ds) = (digitsFrom? value cs).bind (digitsFrom? · ds) := by
  induction cs generalizing value with
  | nil => rfl
  | cons c cs ih =>
    simp only [List.cons_append, digitsFrom?, Option.bind_assoc, ih]

/-- The digits of a number are read as that number. -/
theorem digitsFrom?_toDigits (n : Nat) : digitsFrom? 0 (Nat.toDigits 10 n) = some n := by
  induction n using Nat.strongRecOn with
  | ind n ih =>
    by_cases hn : n < 10
    · rw [Nat.toDigits_of_lt_base hn]
      simp [digitsFrom?, digit?_digitChar hn]
    · have hlast : n % 10 < 10 := Nat.mod_lt n (by decide)
      rw [Nat.toDigits_of_base_le (by decide) (by omega), digitsFrom?_append,
        ih (n / 10) (by omega)]
      simp only [Option.bind_some, digitsFrom?, digit?_digitChar hlast, Option.some.injEq]
      omega

theorem toDigits_ne {n : Nat} {c x : Char} (hc : c ∈ Nat.toDigits 10 n)
    (hx : x.isDigit = false) : c ≠ x := by
  rintro rfl
  rw [Nat.isDigit_of_mem_toDigits (by decide) (by decide) hc] at hx
  cases hx

/-- A numeral without a sign is its digits. -/
theorem numeral?_of_unsigned {limit : Nat} {cs : List Char} (h : ∀ rest, cs ≠ '+' :: rest) :
    numeral? limit cs =
      if cs.isEmpty then none else (digitsFrom? 0 cs).filter (· ≤ limit) := by
  unfold numeral?
  split
  · rename_i rest
    exact absurd rfl (h rest)
  · rfl

/-- The digits of a word are read as that word. -/
theorem word32?_toDigits (n : UInt32) : word32? (Nat.toDigits 10 n.toNat) = some n := by
  have hunsigned : ∀ rest, Nat.toDigits 10 n.toNat ≠ '+' :: rest := by
    intro rest hd
    have hplus : '+' ∈ Nat.toDigits 10 n.toNat := by rw [hd]; exact List.mem_cons_self
    exact toDigits_ne hplus rfl rfl
  have hsome : (Nat.toDigits 10 n.toNat).isEmpty = false := by simp [Nat.toDigits_ne_nil]
  have hfits : n.toNat ≤ 4294967295 := Nat.le_of_lt_succ n.toNat_lt
  rw [word32?, numeral?_of_unsigned hunsigned, hsome, digitsFrom?_toDigits]
  simp [Option.filter, hfits]

end Text

/-! ## Exchange ids -/

namespace ExchangeId

theorem read?_text (id : ExchangeId) : read? id.text = some id := by
  have hbefore : ∀ c ∈ Nat.toDigits 10 id.sequence.toNat, decide (c ≠ '-') = true :=
    fun c hc => decide_eq_true (Text.toDigits_ne hc rfl)
  simp only [read?, text, String.toList_ofList, chars, List.takeWhile_append_of_pos hbefore,
    List.dropWhile_append_of_pos hbefore]
  simp [Text.word32?_toDigits]

end ExchangeId

theorem Order.sequence?_of_exchangeId {o : Order} {id : ExchangeId}
    (h : o.exchangeId = some id.text) : o.sequence? = some id.sequence := by
  simp [sequence?, h, ExchangeId.read?_text]

end OfferDesk
