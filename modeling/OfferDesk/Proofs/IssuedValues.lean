-- Issued values as text. A mark with an exponent moves the point of the number before it, which is
-- read first. So of a number with few digits nothing is lost as long as those before the mark end
-- in the places that a decimal has, and beyond them they are rounded without a word.
import OfferDesk.Proofs.PlainNumbers

namespace OfferDesk

/-! ## Numerals -/

namespace Text

/-- What follows the mark of an exponent: a sign or none, and digits. -/
structure Exponent where
  mark : Char
  sign : Sign
  digits : List Char
  mark_eq : mark = 'e' ∨ mark = 'E'
  all_digits : ∀ c ∈ digits, c.isDigit = true
  some_digit : digits ≠ []

/-- A number in plain or in scientific notation. -/
structure Numeral where
  base : Plain
  exponent : Option Exponent

namespace Exponent

def chars (x : Exponent) : List Char := x.mark :: (x.sign.chars ++ x.digits)

def size (x : Exponent) : Nat := Nat.ofDigitChars 10 x.digits 0

def value (x : Exponent) : Int := if x.sign = .minus then -x.size else x.size

end Exponent

namespace Numeral

def chars (n : Numeral) : List Char :=
  n.base.chars ++ match n.exponent with
    | none => []
    | some x => x.chars

/-- By how many places the exponent moves the point. -/
def power (n : Numeral) : Int := (n.exponent.map Exponent.value).getD 0

/-- The number that the numeral denotes. -/
def value (n : Numeral) : Rat := n.base.value * Decimal.tenPow n.power

end Numeral

end Text

namespace Decimal

open Text

variable {a b : Decimal} {p : Plain} {ds : List Char}

/-! ## Moving the point -/

theorem toRat_shift? {negative : Bool} {e : Nat} (h : a.shift? negative e = some b) :
    b.toRat = a.toRat * tenPow (if negative then -(e : Int) else e) := by
  unfold shift? at h
  cases negative with
  | true =>
    simp only [if_true] at h ⊢
    split at h
    · obtain ⟨hm, hs⟩ := parts_of_ofParts? h
      rw [toRat_eq_div, toRat_eq_div, hm, hs, tenPow_neg, pow10_add, Nat.cast_mul,
        div_mul_div_comm, mul_one]
    · cases h
  | false =>
    simp only [Bool.false_eq_true, if_false] at h ⊢
    split at h
    · rename_i hle
      obtain ⟨hm, hs⟩ := parts_of_ofParts? h
      have hsplit : pow10 a.scale = pow10 (a.scale - e) * pow10 e := by
        rw [← pow10_add, Nat.sub_add_cancel hle]
      rw [toRat_eq_div, toRat_eq_div, hm, hs, hsplit, tenPow_nat, Nat.cast_mul, ← div_div,
        div_mul_cancel₀ _ (pow10_ne_zero e)]
    split at h
    · obtain ⟨hm, hs⟩ := parts_of_ofParts? h
      rw [toRat_of_whole hs, hm, tenPow_nat, toRat_mul_pow10 (by omega)]
    · cases h

/-- The point moves just where there are places for it and the number stays in range. -/
theorem shift?_iff {negative : Bool} {e : Nat} {f : Int}
    (hf : f = if negative then -(e : Int) else e) : (∃ b, a.shift? negative e = some b) ↔
      a.scale - f ≤ (maxScale : Nat) ∧ f ≤ (maxScale : Nat) ∧
        |a.toRat * tenPow f| ≤ maxMantissa := by
  have hscale := a.scale_le
  constructor
  · rintro ⟨b, hb⟩
    have hrange : |a.toRat * tenPow f| ≤ maxMantissa := by
      rw [hf, ← toRat_shift? hb]
      exact b.abs_toRat_le
    have hplaces := b.scale_le
    unfold shift? at hb
    cases negative with
    | true =>
      simp only [if_true] at hb hf
      split at hb
      · have hs := (parts_of_ofParts? hb).2
        exact ⟨by omega, by omega, hrange⟩
      · cases hb
    | false =>
      simp only [Bool.false_eq_true, if_false] at hb hf
      split at hb
      · exact ⟨by omega, by omega, hrange⟩
      split at hb
      · exact ⟨by omega, by omega, hrange⟩
      · cases hb
  · rintro ⟨hplaces, hpower, hrange⟩
    unfold shift?
    cases negative with
    | true =>
      simp only [if_true] at hf ⊢
      rw [if_pos (by omega)]
      exact ⟨_, ofParts?_of_le a.mantissa_le (by omega)⟩
    | false =>
      simp only [Bool.false_eq_true, if_false] at hf ⊢
      split
      · exact ⟨_, ofParts?_of_le a.mantissa_le (by omega)⟩
      · rw [hf, tenPow_nat, toRat_mul_pow10 (by omega), ← cast_natAbs_eq_abs] at hrange
        rw [if_pos (by omega)]
        exact ⟨_, ofParts?_of_le (Nat.cast_le.mp hrange) (by decide)⟩

/-! ## Reading numerals -/

/-- What an exponent makes of the number before its mark. -/
def raised? (a : Decimal) : Option Exponent → Option Decimal
  | none => some a
  | some x =>
    if x.size ≤ UInt32.size - 1 then a.shift? (decide (x.sign = .minus)) x.size else none

theorem toRat_raised? {n : Numeral} (h : a.raised? n.exponent = some b) :
    b.toRat = a.toRat * tenPow n.power := by
  unfold raised? at h
  unfold Numeral.power
  split at h
  · rename_i hnone
    cases h
    rw [hnone, Option.map_none, Option.getD_none, tenPow_zero, mul_one]
  · rename_i x hsome
    split at h
    · rw [hsome, Option.map_some, Option.getD_some, toRat_shift? h, Exponent.value]
      simp only [decide_eq_true_eq]
    · cases h

theorem raised?_iff {n : Numeral} : (∃ b, a.raised? n.exponent = some b) ↔
    a.scale - n.power ≤ (maxScale : Nat) ∧ n.power ≤ (maxScale : Nat) ∧
      |a.toRat * tenPow n.power| ≤ maxMantissa := by
  have hscale := a.scale_le
  unfold raised? Numeral.power
  cases n.exponent with
  | none =>
    simp only [Option.map_none, Option.getD_none, tenPow_zero, mul_one]
    exact ⟨fun _ => ⟨by omega, by omega, a.abs_toRat_le⟩, fun _ => ⟨a, rfl⟩⟩
  | some x =>
    have hvalue : x.value = if decide (x.sign = .minus) then -(x.size : Int) else x.size := by
      simp only [Exponent.value, decide_eq_true_eq]
    simp only [Option.map_some, Option.getD_some]
    rw [← shift?_iff hvalue]
    split
    · rfl
    · rename_i hlarge
      -- such an exponent would also be too large to move the point
      constructor
      · rintro ⟨b, hb⟩
        cases hb
      intro hmoves
      obtain ⟨hplaces, hpower, _⟩ := (shift?_iff hvalue).mp hmoves
      rw [show UInt32.size - 1 = 4294967295 from rfl] at hlarge
      rw [show maxScale = 28 from rfl] at hplaces hpower
      split at hvalue <;> omega

theorem ne_plus_cons (hds : ∀ c ∈ ds, c.isDigit = true) (rest : List Char) : ds ≠ '+' :: rest := by
  rintro rfl
  cases hds '+' List.mem_cons_self

/-- A plus sign in front of digits does not matter. -/
theorem numeral?_plus (hds : ∀ c ∈ ds, c.isDigit = true) (limit : Nat) :
    numeral? limit ('+' :: ds) = numeral? limit ds := by
  rw [numeral?_of_unsigned (ne_plus_cons hds)]
  rfl

theorem numeral?_of_digits (hne : ds ≠ []) (hds : ∀ c ∈ ds, c.isDigit = true) (limit : Nat) :
    numeral? limit ds = if Nat.ofDigitChars 10 ds 0 ≤ limit then some (Nat.ofDigitChars 10 ds 0)
      else none := by
  rw [numeral?_of_unsigned (ne_plus_cons hds), if_neg (by rwa [List.isEmpty_iff]),
    digitsFrom?_of_digits hds 0]
  simp only [Option.filter_some, decide_eq_true_eq]

theorem not_isExponentMark_of_mem {c : Char} (hc : c ∈ p.chars) : isExponentMark c = false := by
  by_contra hmark
  have hmark : c = 'e' ∨ c = 'E' := by simpa [isExponentMark, or_iff_not_imp_left] using hmark
  have hchar : c.isDigit = true ∨ c = '.' ∨ c = '+' ∨ c = '-' := by
    rcases List.mem_append.mp hc with hc | hc
    · exact Or.inr (Or.inr (Sign.mem_chars hc))
    · exact (mem_unsignedChars hc).imp_right Or.inl
  rcases hmark with rfl | rfl
  all_goals
    revert hchar
    decide

theorem raised?_some (a : Decimal) (x : Exponent) : a.raised? (some x) =
    (numeral? (UInt32.size - 1) x.digits).bind fun e => a.shift? (decide (x.sign = .minus)) e := by
  rw [numeral?_of_digits x.some_digit x.all_digits]
  unfold raised? Exponent.size
  dsimp only
  split
  · rfl
  · rfl

theorem isExponentMark_mark (x : Exponent) : isExponentMark x.mark = true := by
  rcases x.mark_eq with h | h
  · rw [h]
    rfl
  · rw [h]
    rfl

/-- A number with an exponent is the number before the mark, moved by the exponent. -/
theorem readScientific?_chars (p : Plain) (x : Exponent) :
    readScientific? (p.chars ++ x.chars) = (read? p.chars).bind (raised? · (some x)) := by
  have hbase : ∀ c ∈ p.chars, (!isExponentMark c) = true := by
    intro c hc
    rw [not_isExponentMark_of_mem hc, Bool.not_false]
  have hmark : ¬ (!isExponentMark x.mark) = true := by
    rw [isExponentMark_mark]
    exact Bool.false_ne_true
  unfold readScientific? Exponent.chars
  rw [List.takeWhile_append_of_pos hbase, List.dropWhile_append_of_pos hbase,
    List.takeWhile_cons_of_neg (p := (!isExponentMark ·)) hmark,
    List.dropWhile_cons_of_neg (p := (!isExponentMark ·)) hmark, List.append_nil]
  congr 1
  funext b
  rw [raised?_some]
  cases x.sign with
  | minus => rfl
  | plus =>
    rw [← numeral?_plus x.all_digits]
    rfl
  | unsigned =>
    obtain ⟨d, ds, hds⟩ := List.exists_cons_of_ne_nil x.some_digit
    have hd := x.all_digits d (by rw [hds]; exact List.mem_cons_self)
    rw [hds, Sign.chars, List.nil_append]
    split
    · rename_i h
      cases h
      cases hd
    · rename_i h
      cases h
      rfl
    · rename_i h
      cases h

theorem chars_plain_ne_nil (p : Plain) : p.chars ≠ [] := by
  intro hnil
  have hsome := p.some_digit
  unfold Plain.chars Plain.unsignedChars at hnil
  obtain ⟨hwhole, hplaces⟩ := List.append_eq_nil_iff.mp (List.append_eq_nil_iff.mp hnil).2
  cases hp : p.places with
  | none => exact hsome (by rw [hwhole, hp]; rfl)
  | some ds =>
    rw [hp] at hplaces
    cases hplaces

/-- Whether there is an exponent is seen by its mark. -/
theorem any_isExponentMark (n : Numeral) :
    n.chars.any isExponentMark = n.exponent.isSome := by
  have hbase : n.base.chars.any isExponentMark = false := by
    rw [List.any_eq_false]
    intro c hc
    rw [not_isExponentMark_of_mem hc]
    exact Bool.false_ne_true
  unfold Numeral.chars
  rw [List.any_append, hbase, Bool.false_or]
  cases n.exponent with
  | none => rfl
  | some x =>
    dsimp only
    rw [Exponent.chars, List.any_cons, isExponentMark_mark, Bool.true_or]
    rfl

/-- How the text of a numeral is read. -/
theorem ofIssuedText_numeral {text : String} {n : Numeral} (h : trim text.toList = n.chars) :
    ofIssuedText text = ((read? n.base.chars).bind (raised? · n.exponent)).elim
      (.error ⟨text, .unreadable⟩) .ok := by
  have hsome : n.chars ≠ [] := by
    intro hnil
    exact chars_plain_ne_nil n.base (List.append_eq_nil_iff.mp hnil).1
  unfold ofIssuedText
  dsimp only
  rw [h, if_neg (by rwa [List.isEmpty_iff]), any_isExponentMark]
  unfold Numeral.chars
  cases n.exponent with
  | none =>
    rw [Option.isSome_none, if_neg Bool.false_ne_true, List.append_nil]
    cases read? n.base.chars with
    | none => rfl
    | some a => rfl
  | some x =>
    rw [Option.isSome_some, if_pos rfl, readScientific?_chars]
    cases (read? n.base.chars).bind (raised? · (some x)) with
    | none => rfl
    | some a => rfl

section Issued

variable {text : String} {n : Numeral}

theorem ofIssuedText_eq_ok_iff (h : trim text.toList = n.chars) : ofIssuedText text = .ok b ↔
    ∃ a, read? n.base.chars = some a ∧ a.raised? n.exponent = some b := by
  rw [ofIssuedText_numeral h, ← Option.bind_eq_some_iff]
  cases (read? n.base.chars).bind (raised? · n.exponent) with
  | none =>
    constructor
    · intro hok
      cases hok
    · intro hsome
      cases hsome
  | some c => rw [Option.elim_some, Except.ok.injEq, Option.some.injEq]

theorem eq_of_ofIssuedText_eq_error {e : AmountError} (h : trim text.toList = n.chars)
    (he : ofIssuedText text = .error e) : e = ⟨text, .unreadable⟩ := by
  rw [ofIssuedText_numeral h] at he
  cases hread : (read? n.base.chars).bind (raised? · n.exponent) with
  | none =>
    rw [hread] at he
    exact (Except.error.inj he).symm
  | some a =>
    rw [hread] at he
    cases he

/-- A number with few digits is read as it stands, but for places that a decimal does not have: the
number before the mark is rounded to those it has, also where the exponent would bring the others
back. So what is read is the number just if that one ends in those places. What is not read is
refused by name: in plain notation a number whose whole part is beyond the range, and with an
exponent one whose point does not move so far. -/
theorem issued_values_are_read_up_to_their_places (htext : trim text.toList = n.chars)
    (hfew : HasDigits WireAmount.issuedDigits n.value) :
    (∀ v, ofIssuedText text = .ok v → ∃ y, RoundedToPlaces n.base.value y ∧
      v.toRat = y * tenPow n.power ∧
      (v.toRat = n.value ↔ ∃ k : Int, n.base.value = k * tenPow (-(maxScale : Nat)))) ∧
    (∀ e, ofIssuedText text = .error e → e = ⟨text, .unreadable⟩) ∧
    (n.exponent = none → ((∃ v, ofIssuedText text = .ok v) ↔
      Nat.ofDigitChars 10 n.base.whole 0 ≤ maxMantissa)) ∧
    (Nat.ofDigitChars 10 n.base.digits 0 ≤ maxMantissa → n.base.placesCount ≤ maxScale →
      ((∃ v, ofIssuedText text = .ok v) ↔ n.base.placesCount - n.power ≤ (maxScale : Nat) ∧
        n.power ≤ (maxScale : Nat) ∧ |n.value| ≤ maxMantissa)) := by
  have hbase : HasDigits WireAmount.issuedDigits n.base.value := by
    have hback := hfew.mul_tenPow (-n.power)
    rwa [Numeral.value, mul_assoc, ← tenPow_add, Int.add_right_neg, tenPow_zero, mul_one] at hback
  have hrange {a : Decimal} (ha : read? n.base.chars = some a) :
      Nat.ofDigitChars 10 n.base.whole 0 ≤ maxMantissa := by
    by_contra hlarge
    rw [read?_chars_plain, readDigits_unsigned_eq_none (Nat.not_le.mp hlarge)] at ha
    cases ha
  refine ⟨?_, fun e => eq_of_ofIssuedText_eq_error htext, ?_, ?_⟩
  · intro v hv
    obtain ⟨a, ha, hav⟩ := (ofIssuedText_eq_ok_iff htext).mp hv
    obtain ⟨y, hy, hround⟩ := read?_rounds hbase (hrange ha)
    obtain rfl : a = y := Option.some_inj.mp (ha.symm.trans hy)
    have hvalue := toRat_raised? hav
    refine ⟨a.toRat, hround, hvalue, ?_⟩
    rw [hvalue, Numeral.value, mul_left_inj' (tenPow_pos _).ne',
      hround.eq_self_iff (tenPow_pos _).ne']
  · intro hplain
    constructor
    · rintro ⟨v, hv⟩
      obtain ⟨a, ha, _⟩ := (ofIssuedText_eq_ok_iff htext).mp hv
      exact hrange ha
    · intro hwhole
      obtain ⟨a, ha, _⟩ := read?_rounds hbase hwhole
      exact ⟨a, (ofIssuedText_eq_ok_iff htext).mpr ⟨a, ha, by rw [hplain, raised?]⟩⟩
  · intro hm hs
    obtain ⟨a, ha, hscale, hvalue⟩ := read?_exact hm hs
    have hmoves := raised?_iff (a := a) (n := n)
    rw [hscale, hvalue] at hmoves
    rw [Numeral.value, ← hmoves]
    simp only [ofIssuedText_eq_ok_iff htext, ha, Option.some.injEq, exists_eq_left']

end Issued

/-! Blanks and zeros around a number, a point and an exponent do not matter as long as there are
places. -/

def twelveThousand : Numeral where
  base := ⟨.minus, ['0', '0', '1', '2'], some ['5'], List.all_eq_true.mp rfl,
    List.all_eq_true.mp rfl, by decide⟩
  exponent := some ⟨'E', .plus, ['3'], by decide, List.all_eq_true.mp rfl, by decide⟩

theorem value_base_twelveThousand : twelveThousand.base.value = -(125 / 10) := rfl

theorem value_twelveThousand : twelveThousand.value = -12500 := by
  rw [Numeral.value, value_base_twelveThousand, show twelveThousand.power = (3 : Nat) from rfl,
    tenPow_nat, show pow10 3 = 1000 from rfl]
  norm_num

theorem twelve_thousand_with_an_exponent :
    trim " -0012.5E+3 ".toList = twelveThousand.chars ∧
      HasDigits WireAmount.issuedDigits twelveThousand.value ∧
      ∃ v, ofIssuedText " -0012.5E+3 " = .ok v ∧ v.toRat = -12500 := by
  have htext : trim " -0012.5E+3 ".toList = twelveThousand.chars := by decide
  have hfew : HasDigits WireAmount.issuedDigits twelveThousand.value := by
    refine ⟨-125, (2 : Nat), by decide, ?_⟩
    rw [value_twelveThousand, tenPow_nat, show pow10 2 = 100 from rfl]
    norm_num
  have hrange : |twelveThousand.value| ≤ maxMantissa := by
    rw [value_twelveThousand]
    norm_num [maxMantissa]
  have hplaces : ∃ k : Int, twelveThousand.base.value = k * tenPow (-(maxScale : Nat)) := by
    refine ⟨-(125 * pow10 27 : Nat), ?_⟩
    rw [value_base_twelveThousand, tenPow_neg, show pow10 maxScale = 10 * pow10 27 from rfl]
    have := pow10_ne_zero 27
    push_cast
    field_simp
  obtain ⟨hexact, _, _, haccepted⟩ := issued_values_are_read_up_to_their_places htext hfew
  obtain ⟨v, hv⟩ := (haccepted (by decide) (by decide)).mpr ⟨by decide, by decide, hrange⟩
  obtain ⟨_, _, _, hwhole⟩ := hexact v hv
  exact ⟨htext, hfew, v, hv, (hwhole.mpr hplaces).trans value_twelveThousand⟩

/-! A number one place beyond those of a decimal is read as zero, and it stays zero where an
exponent brings the digit back. The same number written with its exponent alone is refused. -/

def dust : Numeral where
  base := ⟨.unsigned, ['0'], some (List.replicate 28 '0' ++ ['1']), List.all_eq_true.mp rfl,
    List.all_eq_true.mp rfl, by decide⟩
  exponent := none

def dustTenth : Numeral where
  base := dust.base
  exponent := some ⟨'e', .unsigned, ['2', '8'], by decide, List.all_eq_true.mp rfl, by decide⟩

def dustMarked : Numeral where
  base := ⟨.unsigned, ['1'], none, List.all_eq_true.mp rfl, List.all_eq_true.mp rfl, by decide⟩
  exponent := some ⟨'e', .minus, ['2', '9'], by decide, List.all_eq_true.mp rfl, by decide⟩

theorem value_base_dust : dust.base.value = tenPow (-29) := by
  have hsize : dust.base.value = (1 : Nat) / (pow10 29 : Nat) := rfl
  rw [hsize, show (-29 : Int) = -(29 : Nat) from rfl, tenPow_neg, Nat.cast_one]

theorem digits_behind_the_last_place :
    (trim "0.00000000000000000000000000001".toList = dust.chars ∧ HasDigits 1 dust.value ∧
      ∃ v, ofIssuedText "0.00000000000000000000000000001" = .ok v ∧ v.toRat = 0 ∧
        v.toRat ≠ dust.value) ∧
    (trim "0.00000000000000000000000000001e28".toList = dustTenth.chars ∧
      dustTenth.value = 1 / 10 ∧
      ∃ v, ofIssuedText "0.00000000000000000000000000001e28" = .ok v ∧ v.toRat = 0) ∧
    trim "1e-29".toList = dustMarked.chars ∧ dustMarked.value = dust.value ∧
      ofIssuedText "1e-29" = .error ⟨"1e-29", .unreadable⟩ := by
  have hzero : (⟨0, 28, by decide, by decide⟩ : Decimal).toRat = 0 := rfl
  have hvalue : dust.value = tenPow (-29) := by
    rw [Numeral.value, value_base_dust, show dust.power = 0 from rfl, tenPow_zero, mul_one]
  refine ⟨⟨by decide, ⟨1, -29, by decide, ?_⟩, ⟨0, 28, by decide, by decide⟩, by rfl, hzero, ?_⟩,
    ⟨by decide, ?_, ⟨0, 0, by decide, by decide⟩, by rfl, rfl⟩, by decide, ?_, by rfl⟩
  · rw [hvalue, Int.cast_one, one_mul]
  · rw [hzero, hvalue]
    exact (tenPow_pos _).ne
  · rw [Numeral.value, show dustTenth.base.value = tenPow (-29) from value_base_dust,
      show dustTenth.power = 28 from rfl, ← tenPow_add]
    norm_num [tenPow]
  · rw [hvalue, Numeral.value, show dustMarked.base.value = 1 / 1 from rfl,
      show dustMarked.power = -29 from rfl, div_one, one_mul]

end Decimal

end OfferDesk
