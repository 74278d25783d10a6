-- Offers of limit orders against the prices that were asked for. A price goes down to whole steps of
-- a rule, and the notional is rounded twice, to a decimal and then to the wire; the two together
-- take no more than one unit of the wire. So a buy never gives more than its limit, up to that unit.
-- A sell asks no less than its limit in whole steps, and that can be less than the limit itself.
import OfferDesk.Proofs.BuiltOffers
import OfferDesk.Proofs.WholeSteps

namespace OfferDesk

/-- Nothing is nearest to nothing. -/
theorem NearestUnits.eq_zero {unit y : Rat} (h : NearestUnits unit 0 y) (hunit : 0 < unit) :
    y = 0 := by
  have h0 : NearestUnits unit ((0 : Int) * unit) y := by rwa [Int.cast_zero, zero_mul]
  rw [h0.eq_of_whole hunit, Int.cast_zero, zero_mul]

/-! ## How far a product is off -/

/-- A quotient that is out of range with one place more has a mantissa close to the end of the
range. -/
theorem Quotient.large_of_dropped {n : Int} {d s : Nat} (hd : 0 < d)
    (h : maxMantissa < (halfEven (n * pow10 (s + 1)) d).natAbs) :
    maxMantissa + 5 ≤ 10 * (halfEven (n * pow10 s) d).natAbs := by
  rw [← Nat.not_le, natAbs_halfEven_le_max_iff hd] at h
  have hnear := halfEven_near (n * pow10 s) hd
  have hmul : (halfEven (n * pow10 s) d * d).natAbs = (halfEven (n * pow10 s) d).natAbs * d := by
    rw [Int.natAbs_mul, Int.natAbs_natCast]
  have hmore : (n * pow10 (s + 1)).natAbs = 10 * (n * pow10 s).natAbs := by
    rw [pow10_add, Nat.cast_mul, ← Int.mul_assoc, Int.natAbs_mul, Nat.mul_comm]
    rfl
  by_contra hsmall
  have hle : (halfEven (n * pow10 s) d).natAbs * d ≤ ((maxMantissa + 4) / 10) * d :=
    Nat.mul_le_mul_right d (by omega)
  unfold maxMantissa at h hle
  omega

namespace Decimal

variable {a b c n : Decimal} {x : Rat}

/-- A product is exact, or it is off by at most half of its last place. That is then the last place
that a decimal can have, or else the mantissa is close to the end of the range. -/
theorem mul?_off (h : a.mul? b = some c) :
    c.toRat = a.toRat * b.toRat ∨
      |c.toRat - a.toRat * b.toRat| ≤ tenPow (-c.scale) / 2 ∧
        (c.scale = maxScale ∨ maxMantissa + 5 ≤ 10 * c.mantissa.natAbs) := by
  unfold mul? at h
  split at h
  · rename_i hzero
    cases h
    left
    rw [toRat_zero, toRat_mul_of_isZero hzero]
  · have hoff := abs_nearest?_sub_le (pow10_pos _) (Nat.min_le_left _ _) h
    rw [← toRat_mul_eq, ← tenPow_neg] at hoff
    obtain ⟨hle, hm, hmore⟩ := places_of_nearest? (Nat.min_le_left _ _) h
    rcases Nat.eq_or_lt_of_le hle with hall | hdropped
    · rcases Nat.le_total maxScale (a.scale + b.scale) with hmany | hfew
      · right
        exact ⟨hoff, Or.inl (hall.trans (Nat.min_eq_left hmany))⟩
      · left
        rw [Nat.min_eq_right hfew] at hall
        rw [hall, Quotient.halfEven_exact _ (pow10_pos _)] at hm
        rw [toRat_mul_eq, toRat_eq_div, hm, hall]
    · right
      refine ⟨hoff, Or.inr ?_⟩
      rw [hm]
      exact Quotient.large_of_dropped (pow10_pos _) (hmore hdropped)

/-- A number with a mantissa close to the end of the range has drops in it only with six places or
more. -/
theorem six_le_scale (hlarge : maxMantissa + 5 ≤ 10 * n.mantissa.natAbs)
    (h : (n.mul? dropsPerUnit).isSome = true) : 6 ≤ n.scale := by
  by_contra hfew
  rw [mul?_isSome_iff, toRat_dropsPerUnit, toRat_mul_pow10 (by omega), fits_int_iff,
    Int.natAbs_mul, Int.natAbs_natCast] at h
  have hten : pow10 1 ≤ pow10 (6 - n.scale) := Nat.pow_le_pow_right (by decide) (by omega)
  have hprod := Nat.mul_le_mul_left n.mantissa.natAbs hten
  rw [show pow10 1 = 10 from rfl] at hprod
  omega

theorem isZero_of_large (hlarge : maxMantissa + 5 ≤ 10 * n.mantissa.natAbs) : n.isZero = false := by
  rw [← Bool.not_eq_true, isZero, beq_iff_eq]
  intro h
  rw [h] at hlarge
  exact absurd hlarge (by decide)

/-- With a mantissa close to the end of the range, fifteen digits do not reach down to the last
place. -/
theorem place_le_wireUnit (hlarge : maxMantissa + 5 ≤ 10 * n.mantissa.natAbs) :
    tenPow (-n.scale) ≤ tenPow (n.magnitude + 1 - WireAmount.issuedDigits) := by
  have hz := isZero_of_large hlarge
  have hsize : tenPow (14 - n.scale) ≤ |n.toRat| := by
    rw [toRat_eq_div, abs_div, abs_of_pos (pow10_cast_pos _), Int.sub_eq_add_neg, tenPow_add,
      tenPow_neg, mul_one_div, div_le_div_iff_of_pos_right (pow10_cast_pos _),
      show (14 : Int) = (14 : Nat) from rfl, tenPow_nat, ← Int.cast_abs, Int.abs_eq_natAbs,
      Int.cast_natCast, Nat.cast_le]
    have h14 : pow10 14 = 100000000000000 := rfl
    unfold maxMantissa at hlarge
    omega
  apply tenPow_le
  have hlt := le_of_tenPow_lt (lt_of_le_of_lt hsize (tenPow_magnitude_le hz).2)
  have hdigits : ((WireAmount.issuedDigits : Nat) : Int) = 15 := rfl
  omega

/-- The last of the digits that the ledger keeps of a number. There is none of zero. -/
def lastKept (a : Decimal) : Rat :=
  if a.isZero then 0 else tenPow (a.magnitude + 1 - WireAmount.issuedDigits)

/-- Rounding to the digits that the ledger keeps does not lower the first of them. -/
theorem wireUnit_le_lastKept (ha : 0 < a.toRat)
    (h : NearestUnits (tenPow (a.magnitude + 1 - WireAmount.issuedDigits)) a.toRat b.toRat) :
    tenPow (a.magnitude + 1 - WireAmount.issuedDigits) ≤ b.lastKept := by
  have hfirst := (tenPow_magnitude_le (isZero_iff_false.mpr ha.ne')).1
  rw [abs_of_pos ha] at hfirst
  have hdigits : ((WireAmount.issuedDigits : Nat) : Int) = 15 := rfl
  have hunit := tenPow_pos (a.magnitude + 1 - WireAmount.issuedDigits)
  have hpower : tenPow a.magnitude =
      (pow10 14 : Nat) * tenPow (a.magnitude + 1 - WireAmount.issuedDigits) := by
    rw [← tenPow_nat, ← tenPow_add]
    congr 1
    omega
  obtain ⟨k, hk⟩ := h.whole
  obtain ⟨hlow, _⟩ := abs_le.mp h.near
  -- the first digit stands a whole number of units above zero, so nearest units do not fall below it
  have hunits : ((pow10 14 : Nat) : Rat) < k + 1 := by
    rw [hpower] at hfirst
    rw [hk] at hlow
    refine lt_of_mul_lt_mul_right ?_ hunit.le
    linarith
  have hkept : tenPow a.magnitude ≤ b.toRat := by
    have hint : (pow10 14 : Nat) ≤ k := by
      have : ((pow10 14 : Nat) : Int) < k + 1 := by exact_mod_cast hunits
      omega
    rw [hpower, hk]
    exact mul_le_mul_of_nonneg_right (by exact_mod_cast hint) hunit.le
  have hb : 0 < b.toRat := lt_of_lt_of_le (tenPow_pos _) hkept
  have hbz : b.isZero = false := isZero_iff_false.mpr hb.ne'
  have hlast := (tenPow_magnitude_le hbz).2
  rw [abs_of_pos hb] at hlast
  have hlt := le_of_tenPow_lt (lt_of_le_of_lt hkept hlast)
  rw [lastKept, hbz, if_neg Bool.false_ne_true]
  exact tenPow_le (by omega)

end Decimal

/-! ## How far a notional is off on the wire -/

namespace Currency

open Decimal (tenPow lastKept)

/-- How precisely a value can be written on the wire: to one drop, or to the last of the digits that
the ledger keeps of it, but to no more places than a decimal has. -/
def precision (written : Decimal) : Currency → Rat
  | native => tenPow (-6)
  | issued .. => max written.lastKept (tenPow (-maxScale))

end Currency

namespace WireAmount

open Decimal

variable {a b n v : Decimal} {w : WireAmount} {code issuer : String}

theorem abs_sub_le_add {x y z : Rat} {p q : Rat} (h : |x - y| ≤ p) (h' : |y - z| ≤ q) :
    |x - z| ≤ p + q :=
  (abs_sub_le x y z).trans (add_le_add h h')

/-- In drops a product is off by at most one of them. -/
theorem drops_near (hn : a.mul? b = some n) (hw : ofValue .native n = .ok w)
    (hread : w.amount = .ok ⟨.native, v⟩) :
    |v.toRat - a.toRat * b.toRat| ≤ tenPow (-6) := by
  obtain ⟨v', hv', hwire⟩ := ofValue_reads hw
  cases hread.symm.trans hv'
  have hunits : (n.mul? dropsPerUnit).isSome = true := by
    unfold ofValue at hw
    obtain ⟨minor, hminor, _⟩ := bind_eq_ok_iff.mp hw
    rw [product_eq_ok_iff.mp hminor]
    rfl
  have hnotional : |n.toRat - a.toRat * b.toRat| ≤ tenPow (-6) / 2 := by
    rcases mul?_off hn with hexact | ⟨hoff, hplaces⟩
    · rw [hexact, sub_self, abs_zero]
      exact (half_pos (tenPow_pos _)).le
    · have hscale : 6 ≤ n.scale := by
        rcases hplaces with hall | hlarge
        · rw [hall]
          decide
        · exact six_le_scale hlarge hunits
      have hplace : tenPow (-n.scale) ≤ tenPow (-6) := tenPow_le (by omega)
      exact hoff.trans (by linarith)
  have hnear : |v.toRat - n.toRat| ≤ tenPow (-6) / 2 := hwire.nearest.near
  exact (abs_sub_le_add hnear hnotional).trans (add_halves _).le

/-- In the digits that the ledger keeps a product is off by at most the last of them, or by the last
place that a decimal can have. -/
theorem issued_near (ha : 0 < a.toRat) (hb : 0 < b.toRat) (hn : a.mul? b = some n)
    (hw : ofValue (.issued code issuer) n = .ok w)
    (hread : w.amount = .ok ⟨.issued code issuer, v⟩) :
    |v.toRat - a.toRat * b.toRat| ≤ max v.lastKept (tenPow (-maxScale)) := by
  obtain ⟨v', hv', hwire⟩ := ofValue_reads hw
  cases hread.symm.trans hv'
  have hnear : NearestUnits (tenPow (n.magnitude + 1 - issuedDigits)) n.toRat v.toRat :=
    hwire.nearest
  have hnonneg := (rounds_mul? ha.le hb.le hn).nonneg (mul_pos ha hb).le
  have hlast := tenPow_pos (-maxScale)
  have hleft := le_max_left v.lastKept (tenPow (-maxScale))
  have hright := le_max_right v.lastKept (tenPow (-maxScale))
  have hnotional : |n.toRat - a.toRat * b.toRat| ≤ max v.lastKept (tenPow (-maxScale)) / 2 := by
    rcases mul?_off hn with hexact | ⟨hoff, hall | hlarge⟩
    · rw [hexact, sub_self, abs_zero]
      exact (half_pos (lt_of_lt_of_le hlast hright)).le
    · rw [hall] at hoff
      linarith
    · have hpos := lt_of_le_of_ne hnonneg (isZero_iff_false.mp (isZero_of_large hlarge)).symm
      have hkept := wireUnit_le_lastKept hpos hnear
      have hplace := place_le_wireUnit hlarge
      linarith
  have hwritten : |v.toRat - n.toRat| ≤ max v.lastKept (tenPow (-maxScale)) / 2 := by
    rcases hnonneg.eq_or_lt with hzero | hpos
    · rw [← hzero] at hnear ⊢
      rw [hnear.eq_zero (tenPow_pos _), sub_self, abs_zero]
      exact (half_pos (lt_of_lt_of_le hlast hright)).le
    · have hkept := wireUnit_le_lastKept hpos hnear
      exact hnear.near.trans (by linarith)
  exact (abs_sub_le_add hwritten hnotional).trans (add_halves _).le

/-- What is written of a product lies within one unit of the wire of the exact one. -/
theorem product_near {c : Currency} (ha : 0 < a.toRat) (hb : 0 < b.toRat)
    (hn : a.mul? b = some n) (hw : ofValue c n = .ok w) (hread : w.amount = .ok ⟨c, v⟩) :
    |v.toRat - a.toRat * b.toRat| ≤ c.precision v := by
  cases c with
  | native => exact drops_near hn hw hread
  | issued code issuer => exact issued_near ha hb hn hw hread

end WireAmount

/-! ## Limits -/

namespace PricedOrder

open Decimal (tenPow lastKept floorTo isPositive_iff)

variable {i : PricedOrder} {account : String} {rule : TradingRule} {info : RuleInfo}
  {slippage : Decimal} {tx : Transaction} {amount price : Decimal} {gets pays : WireAmount} {l : Legs}

/-- A limit order has no room beyond its price, so all that changes of it are whole steps. -/
theorem Builds.of_limit (h : i.Builds (some rule) slippage amount price gets pays)
    (hkind : i.kind ≠ .market) :
    amount = rule.floorAmount i.amount ∧ price = rule.floorPrice i.price := by
  obtain ⟨roomy, hroomy, hquantized⟩ := h.quantized
  rw [roomyPrice?, if_neg hkind] at hroomy
  cases hroomy
  cases hquantized
  exact ⟨rfl, rfl⟩

/-- The quote leg lies within one unit of the wire of the exact notional. -/
theorem Written.quote_near (hw : i.Written amount price gets pays l)
    (h : i.legs amount price = .ok (gets, pays)) (hamount : amount.isPositive = true)
    (hprice : price.isPositive = true) :
    |(l.quoteOn i.side.bookSide).value.toRat - amount.toRat * price.toRat| ≤
      i.market.quote.precision (l.quoteOn i.side.bookSide).value := by
  obtain ⟨notional, hnotional, h⟩ := bind_eq_ok_iff.mp h
  obtain ⟨base, _, h⟩ := bind_eq_ok_iff.mp h
  obtain ⟨quote, hquote, h⟩ := bind_eq_ok_iff.mp h
  have hnotional := Decimal.product_eq_ok_iff.mp (mapError_eq_ok_iff.mp hnotional)
  refine WireAmount.product_near (isPositive_iff.mp hamount) (isPositive_iff.mp hprice) hnotional
    (mapError_eq_ok_iff.mp hquote) ?_
  have hcurrency := hw.quote_currency
  cases hside : i.side with
  | buy =>
    rw [hside] at h hcurrency
    cases h
    rw [← hcurrency]
    exact hw.gets_read
  | sell =>
    rw [hside] at h hcurrency
    cases h
    rw [← hcurrency]
    exact hw.pays_read

/-- The quote leg of a limit order is, within one unit of the wire, the amount in whole steps times
the price in whole steps. So a buy gives no more than its limit asks for. A sell asks for no less
than its limit in whole steps, and that falls short of the limit by less than one step a unit. -/
theorem limit_is_kept_in_whole_steps (hkind : i.kind ≠ .market)
    (h : i.build? account (some info.tradingRule) slippage = some (.ok tx)) :
    ∃ (amount : Decimal) (gets pays : WireAmount) (l : Legs) (quote unit : Rat),
      amount = info.tradingRule.floorAmount i.amount ∧
      tx.action = .create gets pays (flagsOf i.side i.kind) ∧
      gets.amount = .ok l.gets ∧ pays.amount = .ok l.pays ∧
      (l.quoteOn i.side.bookSide).currency = i.market.quote ∧
      quote = (l.quoteOn i.side.bookSide).value.toRat ∧
      unit = i.market.quote.precision (l.quoteOn i.side.bookSide).value ∧
      |quote - amount.toRat * floorTo i.price.toRat info.pricePlaces| ≤ unit ∧
      (i.side = .buy → quote ≤ amount.toRat * i.price.toRat + unit) ∧
      (i.side = .sell →
        amount.toRat * floorTo i.price.toRat info.pricePlaces ≤ quote + unit ∧
        amount.toRat * i.price.toRat <
          quote + unit + amount.toRat * (1 / (pow10 info.pricePlaces : Nat))) := by
  obtain ⟨amount, price, gets, pays, hb, haction⟩ := builds_of_build? h
  obtain ⟨l, hw⟩ := written_of_legs hb.written
  obtain ⟨hamount, rfl⟩ := hb.of_limit hkind
  have hnear := hw.quote_near hb.written hb.amount_positive hb.price_positive
  rw [info.toRat_floorPrice] at hnear
  have hpos := isPositive_iff.mp hb.amount_positive
  obtain ⟨hlow, hhigh⟩ := abs_le.mp hnear
  refine ⟨amount, gets, pays, l, _, _, hamount, haction, hw.gets_read, hw.pays_read,
    hw.quote_currency, rfl, rfl, hnear, fun _ => ?_, fun _ => ⟨by linarith, ?_⟩⟩
  · have hfloor := mul_le_mul_of_nonneg_left
      (Decimal.floorTo_le i.price.toRat info.pricePlaces) hpos.le
    linarith
  · have hstep := mul_lt_mul_of_pos_left
      (Decimal.lt_floorTo_add i.price.toRat info.pricePlaces) hpos
    rw [mul_add] at hstep
    linarith

/-! A million units are sold at 0.2245275389. In whole drops a unit the limit goes down to 0.224527,
and the offer asks over half a unit of the native currency less than the limit does. So little is
bought in the other order that its notional comes to one last place of a decimal, which is more than
the limit allows. -/

def millionSale : PricedOrder :=
  ⟨"hbot", soloXrp, .sell, .limit, .ofWord 1000000, ⟨2245275389, 10, by decide, by decide⟩⟩

def soloXrpInfo : RuleInfo := .derive soloXrp none none {}

def soldMillion : Transaction :=
  .draft "r1234" (.create (soloWire "1000000") (.drops "224527000000") Action.sellFlag) "hbot"

theorem sale_of_a_million : ∃ l : Legs, (soloWire "1000000").amount = .ok l.gets ∧
    (WireAmount.drops "224527000000").amount = .ok l.pays ∧
    (1000000 : Rat) * (224527 / 1000000) ≤ l.pays.value.toRat + tenPow (-6) := by
  have hbuild : millionSale.build? "r1234" (some soloXrpInfo.tradingRule) .zero =
      some (.ok soldMillion) := by decide +kernel
  obtain ⟨amount, gets, pays, l, quote, unit, hamount, haction, hgets, hpays, _, rfl, rfl, _, _,
    hsell⟩ := limit_is_kept_in_whole_steps (by decide) hbuild
  cases haction
  refine ⟨l, hgets, hpays, ?_⟩
  have hfloor : soloXrpInfo.tradingRule.floorAmount millionSale.amount = millionSale.amount ∧
      soloXrpInfo.tradingRule.floorPrice millionSale.price =
        ⟨224527, 6, by decide, by decide⟩ := by decide +kernel
  have hwhole : amount.toRat = 1000000 := by
    rw [hamount, hfloor.1]
    exact Decimal.toRat_of_whole rfl
  have hlimit : floorTo millionSale.price.toRat soloXrpInfo.pricePlaces = 224527 / 1000000 := by
    rw [← RuleInfo.toRat_floorPrice, hfloor.2]
    norm_num [Decimal.toRat_eq_div, cast_pow10]
  have hasks := (hsell rfl).1
  rw [hwhole, hlimit] at hasks
  exact hasks

def soloUsd : Market := ⟨"SOLO-USD", .issued "SOLO" "rIssuer", .issued "USD" "rGate"⟩

def dustBuy : PricedOrder :=
  ⟨"hbot", soloUsd, .buy, .limit, .tenth 14, ⟨6, 15, by decide, by decide⟩⟩

def soloUsdInfo : RuleInfo := .derive soloUsd none none {}

def lastPlace : Decimal := .tenth maxScale

def dustGiven : WireAmount := .issued ⟨"USD", "rGate", "0.0000000000000000000000000001"⟩

theorem offers_beyond_their_limits :
    (soloXrpInfo.tradingRule.floorAmount millionSale.amount = millionSale.amount ∧
      millionSale.build? "r1234" (some soloXrpInfo.tradingRule) .zero = some (.ok soldMillion) ∧
      (WireAmount.drops "224527000000").amount = .ok ⟨.native, .ofWord 224527⟩ ∧
      (Decimal.ofWord 224527).toRat + tenPow (-6) <
        millionSale.amount.toRat * millionSale.price.toRat) ∧
    soloUsdInfo.tradingRule.floorAmount dustBuy.amount = dustBuy.amount ∧
      dustBuy.build? "r1234" (some soloUsdInfo.tradingRule) .zero = some (.ok (.draft "r1234"
        (.create dustGiven (soloWire "0.00000000000001") 0) "hbot")) ∧
      dustGiven.amount = .ok ⟨soloUsd.quote, lastPlace⟩ ∧
      dustBuy.amount.toRat * dustBuy.price.toRat + lastPlace.lastKept < lastPlace.toRat := by
  refine ⟨⟨by decide +kernel, by decide +kernel, by decide +kernel, ?_⟩, by decide +kernel,
    by decide +kernel, by decide +kernel, ?_⟩
  · have hsold : (Decimal.ofWord 224527).toRat = 224527 := Decimal.toRat_of_whole rfl
    have hwhole : millionSale.amount.toRat = 1000000 := Decimal.toRat_of_whole rfl
    rw [hsold, hwhole]
    norm_num [Decimal.toRat_eq_div, millionSale, tenPow, cast_pow10]
  · have hkept : lastPlace.lastKept = tenPow (-42) := rfl
    rw [hkept, lastPlace, dustBuy, Decimal.toRat_tenth, Decimal.toRat_tenth]
    norm_num [Decimal.toRat_eq_div, tenPow, cast_pow10, maxScale]

end PricedOrder

end OfferDesk
