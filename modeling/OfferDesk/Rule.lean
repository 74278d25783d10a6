-- Trading and fee rules of a market, and how they follow from what its issuers publish.
import OfferDesk.Market

namespace OfferDesk

/-! ## The rules -/

/-- Settings that take the place of what is derived for a market. -/
structure RuleOverrides where
  baseTickSize : Option UInt32 := none
  quoteTickSize : Option UInt32 := none
  minimumOrderSize : Option Decimal := none
deriving DecidableEq, Inhabited

/-- What is known of a market once its issuers were asked. -/
structure RuleInfo where
  pair : String
  base : Currency
  quote : Currency
  baseTickSize : UInt32
  quoteTickSize : UInt32
  baseTransferRate : Decimal
  quoteTransferRate : Decimal
  minimumOrderSize : Decimal
deriving DecidableEq, Inhabited

/-- The sizes and steps in which a market trades. -/
structure TradingRule where
  pair : String
  minOrderSize : Decimal
  minPriceIncrement : Decimal
  minQuoteAmountIncrement : Decimal
  minBaseAmountIncrement : Decimal
  minNotionalSize : Decimal
deriving DecidableEq, Inhabited

/-- What the issuers of a market take of a transfer. -/
structure FeeRule where
  pair : String
  baseToken : String
  quoteToken : String
  baseTransferRate : Decimal
  quoteTransferRate : Decimal
deriving DecidableEq, Inhabited

namespace TradingRule

/-- An amount, down to a whole number of steps. -/
def floorAmount (r : TradingRule) (amount : Decimal) : Decimal :=
  amount.floorBy r.minBaseAmountIncrement

/-- A price, down to a whole number of steps. -/
def floorPrice (r : TradingRule) (price : Decimal) : Decimal :=
  price.floorBy r.minPriceIncrement

end TradingRule

/-- The fee on what a fill brings in: base for a buy, quote for a sell. -/
def FeeRule.tradeFee? (r : FeeRule) (side : Side) (base quote : Decimal) : Option TradeFee :=
  match side with
  | .buy => (base.mul? r.baseTransferRate).map (⟨r.baseToken, ·⟩)
  | .sell => (quote.mul? r.quoteTransferRate).map (⟨r.quoteToken, ·⟩)

/-! ## What issuers publish -/

namespace RuleInfo

/-- The transfer rate that takes nothing, in billionths. -/
def rateUnit : Nat := 1000000000

theorem natAbs_rate_le (rate : UInt64) : ((rate.toNat : Int) - rateUnit).natAbs ≤ maxMantissa := by
  have := rate.toNat_lt
  unfold rateUnit maxMantissa
  omega

/-- The part of a transfer that an issuer takes. A rate of zero, like no rate, takes nothing. -/
def transferFee : Option UInt64 → Decimal
  | none => .zero
  | some rate =>
    if rate = 0 then .zero
    else
      Decimal.reduce ⟨(rate.toNat : Int) - rateUnit, 9, natAbs_rate_le rate, by decide⟩

/-- Places of the native currency. -/
def nativeTickSize : UInt32 := 6

/-- Digits of an issued currency whose issuer does not set them. -/
def issuedTickSize : UInt32 := 15

def tickSizeOf (currency : Currency) (issuerInfo : Option Json) : UInt32 :=
  if currency.isNative then nativeTickSize
  else
    (((issuerInfo.bind (·.field? "TickSize")).bind Json.word64?).bind
      fun t => if t.toNat < UInt32.size then some t.toUInt32 else none).getD issuedTickSize

def transferFeeOf (currency : Currency) (issuerInfo : Option Json) : Decimal :=
  if currency.isNative then .zero
  else transferFee ((issuerInfo.bind (·.field? "TransferRate")).bind Json.word64?)

/-- The step of so many places. -/
def increment (places : UInt32) : Decimal := .tenth places.toNat

/-- What follows for a market from what its issuers publish. Overrides come first. -/
def derive (market : Market) (baseInfo quoteInfo : Option Json) (overrides : RuleOverrides) :
    RuleInfo :=
  let baseTickSize := overrides.baseTickSize.getD (tickSizeOf market.base baseInfo)
  let quoteTickSize := overrides.quoteTickSize.getD (tickSizeOf market.quote quoteInfo)
  { pair := market.pair
    base := market.base
    quote := market.quote
    baseTickSize := baseTickSize
    quoteTickSize := quoteTickSize
    baseTransferRate := transferFeeOf market.base baseInfo
    quoteTransferRate := transferFeeOf market.quote quoteInfo
    minimumOrderSize :=
      overrides.minimumOrderSize.getD (increment (min baseTickSize quoteTickSize)) }

def tradingRule (i : RuleInfo) : TradingRule where
  pair := i.pair
  minOrderSize := i.minimumOrderSize
  minPriceIncrement := increment i.quoteTickSize
  minQuoteAmountIncrement := increment i.quoteTickSize
  minBaseAmountIncrement := increment i.baseTickSize
  minNotionalSize := increment i.quoteTickSize

def feeRule (i : RuleInfo) : FeeRule where
  pair := i.pair
  baseToken := i.base.symbol
  quoteToken := i.quote.symbol
  baseTransferRate := i.baseTransferRate
  quoteTransferRate := i.quoteTransferRate

end RuleInfo

/-! ## Records -/

namespace RuleOverrides

def ofJson? (j : Json) : Option RuleOverrides := do
  let fields ← j.fieldsOf? ["base_tick_size", "quote_tick_size", "minimum_order_size"]
  return {
    baseTickSize := ← fields.optional "base_tick_size" Json.word32?
    quoteTickSize := ← fields.optional "quote_tick_size" Json.word32?
    minimumOrderSize := ← fields.optional "minimum_order_size" Json.decimal? }

def toJson (h : RuleOverrides) : Json :=
  .object (Json.fieldIfSome "base_tick_size" .ofWord32 h.baseTickSize ++
    Json.fieldIfSome "quote_tick_size" .ofWord32 h.quoteTickSize ++
    Json.fieldIfSome "minimum_order_size" .ofDecimal h.minimumOrderSize)

end RuleOverrides

def RuleInfo.toJson (i : RuleInfo) : Json := .object [
  ("trading_pair", .string i.pair),
  ("base_currency", i.base.toJson),
  ("quote_currency", i.quote.toJson),
  ("base_tick_size", .ofWord32 i.baseTickSize),
  ("quote_tick_size", .ofWord32 i.quoteTickSize),
  ("base_transfer_rate", .ofDecimal i.baseTransferRate),
  ("quote_transfer_rate", .ofDecimal i.quoteTransferRate),
  ("minimum_order_size", .ofDecimal i.minimumOrderSize)]

namespace TradingRule

def ofJson? (j : Json) : Option TradingRule := do
  let fields ← j.fieldsOf? ["trading_pair", "min_order_size", "min_price_increment",
    "min_quote_amount_increment", "min_base_amount_increment", "min_notional_size"]
  return {
    pair := ← fields.required "trading_pair" Json.string?
    minOrderSize := ← fields.required "min_order_size" Json.decimal?
    minPriceIncrement := ← fields.required "min_price_increment" Json.decimal?
    minQuoteAmountIncrement := ← fields.required "min_quote_amount_increment" Json.decimal?
    minBaseAmountIncrement := ← fields.required "min_base_amount_increment" Json.decimal?
    minNotionalSize := ← fields.required "min_notional_size" Json.decimal? }

def toJson (r : TradingRule) : Json := .object [
  ("trading_pair", .string r.pair),
  ("min_order_size", .ofDecimal r.minOrderSize),
  ("min_price_increment", .ofDecimal r.minPriceIncrement),
  ("min_quote_amount_increment", .ofDecimal r.minQuoteAmountIncrement),
  ("min_base_amount_increment", .ofDecimal r.minBaseAmountIncrement),
  ("min_notional_size", .ofDecimal r.minNotionalSize)]

end TradingRule

namespace FeeRule

def ofJson? (j : Json) : Option FeeRule := do
  let fields ← j.fieldsOf? ["trading_pair", "base_token", "quote_token", "base_transfer_rate",
    "quote_transfer_rate"]
  return {
    pair := ← fields.required "trading_pair" Json.string?
    baseToken := ← fields.required "base_token" Json.string?
    quoteToken := ← fields.required "quote_token" Json.string?
    baseTransferRate := ← fields.required "base_transfer_rate" Json.decimal?
    quoteTransferRate := ← fields.required "quote_transfer_rate" Json.decimal? }

def toJson (r : FeeRule) : Json := .object [
  ("trading_pair", .string r.pair),
  ("base_token", .string r.baseToken),
  ("quote_token", .string r.quoteToken),
  ("base_transfer_rate", .ofDecimal r.baseTransferRate),
  ("quote_transfer_rate", .ofDecimal r.quoteTransferRate)]

end FeeRule

end OfferDesk
