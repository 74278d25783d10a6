-- Offers that are built against what they read as. The amount and the notional of an order are
-- written on the wire each in its own currency, and read back as they stand there. So an offer has
-- something in both of its legs just if neither vanishes on the way, and in a market of two
-- currencies it is seen on the side of its order.
import OfferDesk.Proofs.CappedPrices
import OfferDesk.Proofs.WireAmounts
import OfferDesk.Submission.Build

namespace OfferDesk

open Decimal (halfLastPlace isPositive_iff)

/-- What vanishes on the wire is an even number of last places. -/
theorem Currency.vanishing_eq_places (c : Currency) : ∃ t : Int, t % 2 = 0 ∧ t < pow10 maxScale ∧
    c.vanishing = (t : Rat) / (pow10 maxScale : Nat) := by
  cases c with
  | native =>
    refine ⟨5 * pow10 21, by decide, by decide, ?_⟩
    rw [vanishing, show (-6 : Int) = -(6 : Nat) from rfl, Decimal.tenPow_neg]
    norm_num [cast_pow10, maxScale]
  | issued code issuer => exact ⟨0, rfl, by decide, by simp [vanishing]⟩

/-- The side of a book on which an order stands. -/
def Side.bookSide : Side → BookSide
  | .buy => .bid
  | .sell => .ask

namespace PricedOrder

variable {i : PricedOrder} {account : String} {rule : Option TradingRule} {slippage : Decimal}
  {tx : Transaction} {amount price : Decimal} {gets pays : WireAmount}

/-! ## What is built -/

/-- What an offer is built from: the amount and the price that remain of those of its order in whole
steps of a rule, both above zero, and the legs that they are written as. -/
structure Builds (i : PricedOrder) (rule : Option TradingRule) (slippage amount price : Decimal)
    (gets pays : WireAmount) : Prop where
  quantized : ∃ roomy, i.roomyPrice? slippage = some (.ok roomy) ∧
    i.quantized rule roomy = (amount, price)
  amount_positive : amount.isPositive = true
  price_positive : price.isPositive = true
  written : i.legs amount price = .ok (gets, pays)

theorem builds_of_build? (h : i.build? account rule slippage = some (.ok tx)) :
    ∃ amount price gets pays, i.Builds rule slippage amount price gets pays ∧
      tx.action = .create gets pays (flagsOf i.side i.kind) := by
  unfold build? at h
  obtain ⟨roomy?, hroomy, h⟩ := Option.map_eq_some_iff.mp h
  obtain ⟨roomy, rfl, hoffer⟩ := bind_eq_ok_iff.mp h
  unfold offerAt at hoffer
  cases hq : i.quantized rule roomy with
  | mk amount price =>
    rw [hq] at hoffer
    dsimp only at hoffer
    split at hoffer
    · cases hoffer
    rename_i hpositive
    simp only [Bool.or_eq_true, Bool.not_eq_true', not_or, Bool.not_eq_false] at hpositive
    obtain ⟨⟨gets, pays⟩, hlegs, hdraft⟩ := bind_eq_ok_iff.mp hoffer
    cases hdraft
    exact ⟨amount, price, gets, pays, ⟨⟨roomy, hroomy, hq⟩, hpositive.1, hpositive.2, hlegs⟩, rfl⟩

/-- How the legs of an offer read: what is left of the amount in the base currency of the market,
and what is left of the notional in its quote currency. -/
structure Written (i : PricedOrder) (amount price : Decimal) (gets pays : WireAmount) (l : Legs) :
    Prop where
  gets_read : gets.amount = .ok l.gets
  pays_read : pays.amount = .ok l.pays
  base_currency : (l.baseOn i.side.bookSide).currency = i.market.base
  quote_currency : (l.quoteOn i.side.bookSide).currency = i.market.quote
  base : i.market.base.OnWire amount (l.baseOn i.side.bookSide).value
  quote : ∃ notional, amount.mul? price = some notional ∧
    i.market.quote.OnWire notional (l.quoteOn i.side.bookSide).value

theorem written_of_legs (h : i.legs amount price = .ok (gets, pays)) :
    ∃ l, i.Written amount price gets pays l := by
  obtain ⟨notional, hnotional, h⟩ := bind_eq_ok_iff.mp h
  obtain ⟨base, hbase, h⟩ := bind_eq_ok_iff.mp h
  obtain ⟨quote, hquote, h⟩ := bind_eq_ok_iff.mp h
  have hnotional := Decimal.product_eq_ok_iff.mp (mapError_eq_ok_iff.mp hnotional)
  obtain ⟨b, hb, hbaseWire⟩ := WireAmount.ofValue_reads (mapError_eq_ok_iff.mp hbase)
  obtain ⟨q, hq, hquoteWire⟩ := WireAmount.ofValue_reads (mapError_eq_ok_iff.mp hquote)
  cases hside : i.side with
  | buy =>
    rw [hside] at h
    cases h
    refine ⟨⟨⟨i.market.quote, q⟩, ⟨i.market.base, b⟩⟩, hq, hb, ?_, ?_, ?_, notional, hnotional, ?_⟩
    all_goals rw [hside]
    · rfl
    · rfl
    · exact hbaseWire
    · exact hquoteWire
  | sell =>
    rw [hside] at h
    cases h
    refine ⟨⟨⟨i.market.base, b⟩, ⟨i.market.quote, q⟩⟩, hb, hq, ?_, ?_, ?_, notional, hnotional, ?_⟩
    all_goals rw [hside]
    · rfl
    · rfl
    · exact hbaseWire
    · exact hquoteWire

/-! ## Something in both legs -/

namespace Written

variable {l : Legs}

theorem base_positive_iff (h : i.Written amount price gets pays l)
    (hamount : amount.isPositive = true) :
    (l.baseOn i.side.bookSide).value.isPositive = true ↔
      i.market.base.vanishing < amount.toRat := by
  rw [isPositive_iff]
  exact h.base.pos_iff (isPositive_iff.mp hamount).le

/-- The notional is rounded before it is written, and that takes half a last place more. -/
theorem quote_positive_iff (h : i.Written amount price gets pays l)
    (hamount : amount.isPositive = true) (hprice : price.isPositive = true) :
    (l.quoteOn i.side.bookSide).value.isPositive = true ↔
      i.market.quote.vanishing + halfLastPlace < amount.toRat * price.toRat := by
  obtain ⟨notional, hnotional, hwire⟩ := h.quote
  have ha := (isPositive_iff.mp hamount).le
  have hp := (isPositive_iff.mp hprice).le
  have hround := Decimal.rounds_mul? ha hp hnotional
  obtain ⟨t, heven, hsmall, ht⟩ := i.market.quote.vanishing_eq_places
  rw [isPositive_iff, hwire.pos_iff (hround.nonneg (mul_nonneg ha hp)), ht]
  exact hround.lt_iff heven hsmall

theorem positive_iff (h : i.Written amount price gets pays l) (hamount : amount.isPositive = true)
    (hprice : price.isPositive = true) :
    (l.gets.value.isPositive = true ∧ l.pays.value.isPositive = true) ↔
      i.market.base.vanishing < amount.toRat ∧
        i.market.quote.vanishing + halfLastPlace < amount.toRat * price.toRat := by
  rw [← h.base_positive_iff hamount, ← h.quote_positive_iff hamount hprice]
  cases i.side with
  | buy => exact and_comm
  | sell => exact Iff.rfl

end Written

/-- Both legs of an offer that is built read back, and there is something in both of them just if
the amount is one that does not vanish in the base currency of the market, and the exact product of
amount and price lies more than half a last place above all that vanishes in its quote currency. -/
theorem built_legs_positive_iff (h : i.build? account rule slippage = some (.ok tx)) :
    ∃ (amount price : Decimal) (gets pays : WireAmount) (l : Legs),
      i.Builds rule slippage amount price gets pays ∧
      tx.action = .create gets pays (flagsOf i.side i.kind) ∧
      gets.amount = .ok l.gets ∧ pays.amount = .ok l.pays ∧
      ((l.gets.value.isPositive = true ∧ l.pays.value.isPositive = true) ↔
        i.market.base.vanishing < amount.toRat ∧
          i.market.quote.vanishing + halfLastPlace < amount.toRat * price.toRat) := by
  obtain ⟨amount, price, gets, pays, hb, haction⟩ := builds_of_build? h
  obtain ⟨l, hw⟩ := written_of_legs hb.written
  exact ⟨amount, price, gets, pays, l, hb, haction, hw.gets_read, hw.pays_read,
    hw.positive_iff hb.amount_positive hb.price_positive⟩

/-! One unit is sold. At 0.22 both legs have something in them. At a ten-millionth the notional is a
tenth of a drop, and the offer asks nothing. -/

def saleAt (price : Decimal) : PricedOrder := ⟨"hbot", soloXrp, .sell, .limit, .one, price⟩

def saleOffer (drops : String) : Transaction :=
  .draft "r1234" (.create (soloWire "1") (.drops drops) Action.sellFlag) "hbot"

theorem legs_of_a_sale : ∃ l : Legs, (soloWire "1").amount = .ok l.gets ∧
    (WireAmount.drops "220000").amount = .ok l.pays ∧ l.gets.value.isPositive = true ∧
    l.pays.value.isPositive = true := by
  have hbuild : (saleAt ⟨22, 2, by decide, by decide⟩).build? "r1234" none .zero =
      some (.ok (saleOffer "220000")) := by decide +kernel
  obtain ⟨amount, price, gets, pays, l, hb, haction, hgets, hpays, hiff⟩ :=
    built_legs_positive_iff hbuild
  cases haction
  obtain ⟨roomy, hroomy, hquantized⟩ := hb.quantized
  cases hroomy
  cases hquantized
  refine ⟨l, hgets, hpays, hiff.mpr ⟨isPositive_iff.mp rfl, ?_⟩⟩
  show Currency.native.vanishing + halfLastPlace < _
  norm_num [Currency.vanishing, Decimal.tenPow, halfLastPlace, Decimal.toRat_eq_div, saleAt,
    Decimal.one, cast_pow10, maxScale]

theorem a_sale_that_asks_nothing :
    (saleAt ⟨1, 7, by decide, by decide⟩).build? "r1234" none .zero =
      some (.ok (saleOffer "0")) ∧
    (WireAmount.drops "0").amount = .ok ⟨.native, .zero⟩ := by decide +kernel

/-! ## How an offer is seen -/

/-- The side on which a market sees the offer of an order. Where the two currencies count as the
same, every offer passes for an ask. -/
def seenSide (i : PricedOrder) : BookSide :=
  if i.market.base.agreesWith i.market.quote then .ask else i.side.bookSide

theorem seenSide_eq_iff : i.seenSide = i.side.bookSide ↔
    i.market.base.agreesWith i.market.quote = false ∨ i.side = .sell := by
  unfold seenSide
  cases i.market.base.agreesWith i.market.quote <;> cases i.side <;> decide

theorem Written.sided {l : Legs} (h : i.Written amount price gets pays l) :
    i.market.sideOf? l.gets.currency l.pays.currency = some i.seenSide := by
  have hbase := h.base_currency
  have hquote := h.quote_currency
  unfold seenSide Market.sideOf?
  cases hside : i.side with
  | buy =>
    rw [hside] at hbase hquote
    rw [show l.gets.currency = i.market.quote from hquote,
      show l.pays.currency = i.market.base from hbase, Currency.agreesWith_comm i.market.quote,
      Currency.agreesWith_self, Currency.agreesWith_self, Bool.and_self]
    cases i.market.base.agreesWith i.market.quote <;> rfl
  | sell =>
    rw [hside] at hbase hquote
    rw [show l.gets.currency = i.market.base from hbase,
      show l.pays.currency = i.market.quote from hquote, Currency.agreesWith_self,
      Currency.agreesWith_self]
    cases i.market.base.agreesWith i.market.quote <;> rfl

end PricedOrder

namespace PricedOrder

variable {i : PricedOrder} {account : String} {rule : Option TradingRule} {slippage : Decimal}
  {tx : Transaction} {offer : Offer} {flags : UInt32} {l : Legs}

/-- An offer that is built, with something in both of its legs, is always seen in the market of its
order. As long as its quality and its price are in range it has an entry there, with what was
written of the amount and with the rate of the legs as they were written. The side is that of the
order, unless a buy is in a market whose two currencies count as the same. -/
theorem built_offer_is_seen (h : i.build? account rule slippage = some (.ok tx))
    (haction : tx.action = .create offer.takerGets offer.takerPays flags)
    (hfunds : offer.ownerFunds = none)
    (hgets : offer.takerGets.amount = .ok l.gets) (hpays : offer.takerPays.amount = .ok l.pays)
    (hgetsPos : l.gets.value.isPositive = true) (hpaysPos : l.pays.value.isPositive = true) :
    ∃ amount price,
      i.Builds rule slippage amount price offer.takerGets offer.takerPays ∧
      i.market.base.OnWire amount (l.baseOn i.side.bookSide).value ∧
      (i.seenSide = i.side.bookSide ↔
        i.market.base.agreesWith i.market.quote = false ∨ i.side = .sell) ∧
      i.market.sided offer ≠ .ok none ∧
      ∀ quality rate, l.quality = .ok quality → l.priceOn i.seenSide = .ok rate →
        i.market.sided offer = .ok (some ⟨i.seenSide,
          ⟨offer.id, rate, (l.baseOn i.seenSide).value, quality⟩, false⟩) ∧
        rate.Rounds (l.rateOn i.seenSide) := by
  obtain ⟨amount, price, gets, pays, hb, hcreate⟩ := builds_of_build? h
  obtain ⟨rfl, rfl, -⟩ := Action.create.inj (haction.symm.trans hcreate)
  obtain ⟨l', hw⟩ := written_of_legs hb.written
  obtain rfl := Market.legs_eq_of_read (hgets.symm.trans hw.gets_read)
    (hpays.symm.trans hw.pays_read)
  have hentry := Market.sided_uncut hgets hpays hw.sided hgetsPos hpaysPos hfunds
  refine ⟨amount, price, hb, hw.base, seenSide_eq_iff, ?_, ?_⟩
  · rw [hentry]
    intro hnone
    obtain ⟨_, _, hnone⟩ := bind_eq_ok_iff.mp hnone
    obtain ⟨_, _, hnone⟩ := bind_eq_ok_iff.mp hnone
    cases hnone
  · intro quality rate hquality hrate
    refine ⟨by rw [hentry, hquality, hrate]; rfl, ?_⟩
    refine Legs.rounds_priceOn (isPositive_iff.mp (l.base_positive hgetsPos hpaysPos _)) ?_ hrate
    cases i.seenSide
    · exact (isPositive_iff.mp hgetsPos).le
    · exact (isPositive_iff.mp hpaysPos).le

/-! Ten units are bought at 0.2. Where the two currencies are told apart this is a bid for ten.
Where they differ in nothing but the case of their codes it passes for an ask of two at five. -/

def buyIn (m : Market) (price : Decimal) : PricedOrder :=
  ⟨"hbot", m, .buy, .limit, .ofWord 10, price⟩

def boughtOffer : Offer := offerOf "r1234" 1 (.drops "2000000") (soloWire "10")

def boughtLegs : Legs := ⟨⟨.native, .two⟩, ⟨.issued "SOLO" "rIssuer", .ofWord 10⟩⟩

theorem a_buy_is_a_bid : soloXrp.sided boughtOffer =
    .ok (some ⟨.bid, ⟨⟨"r1234", 1⟩, ⟨2, 1, by decide, by decide⟩, .ofWord 10,
      ⟨5, 6, by decide, by decide⟩⟩, false⟩) := by
  have hbuild : (buyIn soloXrp ⟨2, 1, by decide, by decide⟩).build? "r1234" none .zero =
      some (.ok (.draft "r1234"
        (.create boughtOffer.takerGets boughtOffer.takerPays 0) "hbot")) := by
    decide +kernel
  have hgets : boughtOffer.takerGets.amount = .ok boughtLegs.gets := by decide +kernel
  have hpays : boughtOffer.takerPays.amount = .ok boughtLegs.pays := by decide +kernel
  obtain ⟨_, _, _, _, _, _, hentry⟩ := built_offer_is_seen hbuild rfl rfl hgets hpays rfl rfl
  exact (hentry _ _ (by decide +kernel) (by decide +kernel)).1

def caseMarket : Market := ⟨"USD-usd", .issued "USD" "rIssuer", .issued "usd" "rIssuer"⟩

theorem a_buy_passes_for_an_ask :
    (buyIn caseMarket ⟨2, 1, by decide, by decide⟩).build? "r1234" none .zero =
      some (.ok (.draft "r1234" (.create (.issued ⟨"usd", "rIssuer", "2"⟩)
        (.issued ⟨"USD", "rIssuer", "10"⟩) 0) "hbot")) ∧
    caseMarket.sided (offerOf "r1234" 1 (.issued ⟨"usd", "rIssuer", "2"⟩)
      (.issued ⟨"USD", "rIssuer", "10"⟩)) =
      .ok (some ⟨.ask, ⟨⟨"r1234", 1⟩, .ofWord 5, .two, .ofWord 5⟩, false⟩) := by decide +kernel

end PricedOrder

end OfferDesk
