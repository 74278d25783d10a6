-- Amounts that are written and read back. What is written reads back as the value it stands for,
-- and that value is written the same again. So writing changes a value at most once: a text of
-- drops without zeros in front comes back as it was, and a value with no more digits than the
-- ledger keeps comes back as the same value.
import Mathlib.Data.List.Induction
import OfferDesk.Proofs.SignificantDigits
import OfferDesk.Proofs.WholeDrops

namespace OfferDesk

/-! ## Whole numbers as they are written -/

namespace Text

variable {cs ds : List Char} {n : Int}

/-- Digits with no zeros in front of others. -/
structure Trimmed (ds : List Char) : Prop where
  some_digit : ds ≠ []
  digits : ∀ c ∈ ds, c.isDigit = true
  no_zero : ds.head? = some '0' → ds = ['0']

/-- A whole number as it is written: no zeros in front of other digits, and no minus sign before
nothing. -/
inductive Canonical : List Char → Int → Prop
  | digits {ds : List Char} : Trimmed ds → Canonical ds (Nat.ofDigitChars 10 ds 0)
  | minus {ds : List Char} : Trimmed ds → ds ≠ ['0'] →
      Canonical ('-' :: ds) (-(Nat.ofDigitChars 10 ds 0 : Nat))

theorem Canonical.whole (h : Canonical cs n) : Whole cs n := by
  cases h with
  | digits hds => exact .digits hds.some_digit hds.digits
  | minus hds _ => exact .minus hds.some_digit hds.digits

theorem exists_digitChar {c : Char} (h : c.isDigit = true) : ∃ d, d < 10 ∧ c = Nat.digitChar d := by
  obtain ⟨hlow, hhigh⟩ : 48 ≤ c.toNat ∧ c.toNat ≤ 57 := by
    simpa [Char.isDigit, UInt32.le_iff_toNat_le] using h
  have hd : c.toNat - 48 < 10 := by omega
  refine ⟨c.toNat - 48, hd, Char.toNat_inj.mp ?_⟩
  rw [Nat.toNat_digitChar_of_lt_ten hd]
  omega

/-- The digits of a number without zeros in front are those that it is written with. -/
theorem toDigits_ofDigitChars (h : Trimmed ds) :
    Nat.toDigits 10 (Nat.ofDigitChars 10 ds 0) = ds := by
  obtain ⟨hne, hdigits, hzero⟩ := h
  induction ds using List.reverseRecOn with
  | nil => exact absurd rfl hne
  | append_singleton cs c ih =>
    have hc : c.isDigit = true := hdigits c (by simp)
    obtain ⟨d, hd, rfl⟩ := exists_digitChar hc
    rw [Nat.ofDigitChars_append, Nat.ofDigitChars_cons_digitChar_of_lt_ten hd, Nat.ofDigitChars_nil]
    by_cases hcs : cs = []
    · subst hcs
      rw [Nat.ofDigitChars_nil, Nat.mul_zero, Nat.zero_add, Nat.toDigits_of_lt_base hd]
      rfl
    · have hhead : cs.head? ≠ some '0' := by
        intro h0
        have := hzero (by rw [List.head?_append_of_ne_nil _ hcs, h0])
        simp [List.append_eq_singleton_iff, hcs] at this
      have hrest := ih hcs (fun c hc => hdigits c (List.mem_append_left _ hc))
        (fun h0 => absurd h0 hhead)
      have hpos : 0 < Nat.ofDigitChars 10 cs 0 := by
        by_contra hnot
        rw [Nat.eq_zero_of_not_pos hnot] at hrest
        rw [← hrest] at hhead
        exact hhead rfl
      rw [← Nat.toDigits_append_toDigits (by decide) hpos hd, hrest, Nat.toDigits_of_lt_base hd]

theorem Trimmed.pos (h : Trimmed ds) (hne : ds ≠ ['0']) : 0 < Nat.ofDigitChars 10 ds 0 := by
  by_contra hnot
  have hds := toDigits_ofDigitChars h
  rw [Nat.eq_zero_of_not_pos hnot] at hds
  exact hne hds.symm

theorem trim_of_whole (h : Whole cs n) : trim cs = cs := by
  have hblank {ds : List Char} (hds : ∀ c ∈ ds, c.isDigit = true) :
      ∀ c ∈ ds, isBlank c = false := by
    intro c hc
    exact not_blank_of_isDigit (by rw [isDigit_eq, hds c hc])
  apply trim_of_not_blank
  cases h with
  | digits _ hds => exact hblank hds
  | minus _ hds =>
    intro c hc
    rcases List.mem_cons.mp hc with rfl | hc
    · rfl
    · exact hblank hds c hc

end Text

namespace Decimal

open Text

variable {a : Decimal} {cs : List Char} {n : Int}

/-- A whole number in range is written as its canonical text. -/
theorem chars_of_canonical (h : Canonical cs n) (hn : n.natAbs ≤ maxMantissa) :
    chars ⟨n, 0, hn, by decide⟩ = cs := by
  have hone (m : Nat) : m / pow10 0 = m := Nat.div_one m
  cases h with
  | digits hds =>
    unfold chars
    simp only [hone, Int.natAbs_natCast, toDigits_ofDigitChars hds, if_true,
      Int.not_lt.mpr (Int.natCast_nonneg _), if_false, List.nil_append]
  | minus hds hne =>
    have hneg : -((Nat.ofDigitChars 10 _ 0 : Nat) : Int) < 0 :=
      Int.neg_neg_of_pos (Int.natCast_pos.mpr (hds.pos hne))
    unfold chars
    simp only [hone, Int.natAbs_neg, Int.natAbs_natCast, toDigits_ofDigitChars hds, if_true, hneg,
      List.singleton_append]

/-! ## Digits that are kept -/

/-- What the ledger keeps of a value has no more digits than it keeps. -/
theorem hasDigits_kept (a : Decimal) : HasDigits WireAmount.issuedDigits
    ((a.roundSignificant? WireAmount.issuedDigits).getD a).toRat := by
  cases hz : a.isZero with
  | true =>
    unfold roundSignificant?
    rw [hz, if_pos rfl, Option.getD_some, toRat_of_isZero hz]
    exact ⟨0, 0, pow10_pos _, by simp⟩
  | false =>
    obtain ⟨b, hb, hnear⟩ := nearest_roundSignificant hz
    rw [hb, Option.getD_some]
    exact hasDigits_of_nearest (by decide) (tenPow_magnitude_le hz).2 hnear

/-- The ledger keeps all of a value that has no more digits. -/
theorem toRat_kept (h : HasDigits WireAmount.issuedDigits a.toRat) :
    ((a.roundSignificant? WireAmount.issuedDigits).getD a).toRat = a.toRat := by
  cases hz : a.isZero with
  | true =>
    unfold roundSignificant?
    rw [hz, if_pos rfl, Option.getD_some]
  | false =>
    obtain ⟨b, hb, hnear⟩ := nearest_roundSignificant hz
    obtain ⟨k, hk⟩ := h.whole_units (tenPow_magnitude_le hz).1
    rw [hk] at hnear
    rw [hb, Option.getD_some, hnear.eq_of_whole (tenPow_pos _), hk]

end Decimal

namespace WireAmount

open Text Decimal

variable {a b : Decimal} {c : Currency} {w : WireAmount} {code issuer : String}

/-- So many millionths are written as so many drops. -/
theorem ofValue_millionths (h : a.scale = 0) :
    ofValue .native a.millionths = .ok (drops a.plainText) := by
  have hvalue : a.toRat = a.millionths.toRat * dropsPerUnit.toRat := by
    rw [toRat_millionths h, toRat_dropsPerUnit, show (-6 : Int) = -(6 : Nat) from rfl, tenPow_neg,
      mul_assoc, one_div_mul_cancel (pow10_ne_zero 6), mul_one]
  obtain ⟨minor, hminor, hsame⟩ := mul?_exact (by omega) hvalue
  have hround : (minor.roundEven 0).toRat = a.toRat := by
    obtain ⟨_, hwhole, hnear⟩ := minor.roundEven_zero
    rw [hsame, toRat_of_whole h] at hnear
    rw [hwhole, hnear.eq_of_int, toRat_of_whole h]
  unfold ofValue
  simp only [product_eq_ok_iff.mpr hminor]
  exact congrArg (fun text => Except.ok (drops text)) (plainText_congr hround)

/-- What is written is read back in the same currency, and what is read back is written the same. -/
theorem ofValue_again (h : ofValue c a = .ok w) :
    ∃ b, w.amount = .ok ⟨c, b⟩ ∧ ofValue c b = .ok w := by
  cases c with
  | native =>
    unfold ofValue at h
    cases hdrops : a.product dropsPerUnit with
    | error e =>
      rw [hdrops] at h
      cases h
    | ok minor =>
      rw [hdrops] at h
      cases h
      have hscale := minor.roundEven_zero.1
      exact ⟨_, amount_drops hscale, ofValue_millionths hscale⟩
  | issued code issuer =>
    cases h
    refine ⟨_, amount_issued _ code issuer, ?_⟩
    have hkept := a.hasDigits_kept
    rw [← toRat_reduce] at hkept
    unfold ofValue
    rw [plainText_congr (toRat_kept hkept), plainText_congr (toRat_reduce _)]

/-- A canonical text of drops is what the value read from it is written as. -/
theorem ofValue_of_canonical {text : String} {n : Int} (h : Canonical text.toList n)
    (hn : n.natAbs ≤ maxMantissa) :
    ∃ b, (drops text).amount = .ok ⟨.native, b⟩ ∧ ofValue .native b = .ok (drops text) := by
  have hwhole := h.whole
  rw [← trim_of_whole hwhole] at hwhole
  refine ⟨_, amount_of_whole hwhole hn, ?_⟩
  rw [ofValue_millionths rfl, plainText, reduce_of_whole rfl, Decimal.text,
    chars_of_canonical h hn, String.ofList_toList]

/-- Writing a value is a projection. -/
theorem writing_is_a_projection :
    (∀ c a w, ofValue c a = .ok w → ∃ b, w.amount = .ok ⟨c, b⟩ ∧ ofValue c b = .ok w) ∧
    (∀ text n, Canonical text.toList n → n.natAbs ≤ maxMantissa →
      ∃ b, (drops text).amount = .ok ⟨.native, b⟩ ∧ ofValue .native b = .ok (drops text)) ∧
    (∀ code issuer a, HasDigits issuedDigits a.toRat →
      ∃ w b, ofValue (.issued code issuer) a = .ok w ∧ w.amount = .ok ⟨.issued code issuer, b⟩ ∧
        b.toRat = a.toRat) := by
  refine ⟨fun c a w => ofValue_again, fun text n => ofValue_of_canonical, ?_⟩
  intro code issuer a hdigits
  exact ⟨_, _, rfl, amount_issued _ code issuer, (toRat_reduce _).trans (toRat_kept hdigits)⟩

/-! A value with eight places is rounded to drops once. Drops come back as they were written, and so
does a value with fifteen digits. -/

def eightPlaces : Decimal := ⟨1234567891, 8, by decide, by decide⟩

def fifteenDigits : Decimal := ⟨-123456789012345, 20, by decide, by decide⟩

theorem amounts_that_come_back :
    ofValue .native eightPlaces = .ok (drops "12345679") ∧
    (∃ b, (drops "12345679").amount = .ok ⟨.native, b⟩ ∧
      ofValue .native b = .ok (drops "12345679")) ∧
    Canonical "-12".toList (-12) ∧
    (∃ b, (drops "-12").amount = .ok ⟨.native, b⟩ ∧ ofValue .native b = .ok (drops "-12")) ∧
    HasDigits issuedDigits fifteenDigits.toRat ∧
    ∃ w b, ofValue (.issued "USD" "rGate") fifteenDigits = .ok w ∧
      w.amount = .ok ⟨.issued "USD" "rGate", b⟩ ∧ b.toRat = fifteenDigits.toRat := by
  obtain ⟨hagain, hdrops, hdigits⟩ := writing_is_a_projection
  have hwritten : ofValue .native eightPlaces = .ok (drops "12345679") := rfl
  have hcanonical : Canonical "-12".toList (-12) :=
    .minus ⟨by decide, List.all_eq_true.mp rfl, by decide⟩ (by decide)
  have hkept : HasDigits issuedDigits fifteenDigits.toRat := by
    refine ⟨-123456789012345, -20, by decide, ?_⟩
    rw [toRat_eq_div, show (-20 : Int) = -(20 : Nat) from rfl, tenPow_neg, mul_one_div]
    rfl
  exact ⟨hwritten, hagain _ _ _ hwritten, hcanonical, hdrops _ _ hcanonical (by decide), hkept,
    hdigits "USD" "rGate" _ hkept⟩

end WireAmount

end OfferDesk
