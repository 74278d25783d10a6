-- Orders written as transactions: the two legs of an offer, and its flags.
import OfferDesk.Rule
import OfferDesk.Transaction

namespace OfferDesk

/-- What a client asks for, with its price settled. -/
structure PricedOrder where
  clientId : String
  market : Market
  side : Side
  kind : OrderKind
  amount : Decimal
  price : Decimal
deriving DecidableEq, Inhabited

namespace PricedOrder

/-- The flags of an offer: one for a sell, one for a market order, and one for an order that may
only rest. -/
def flagsOf (side : Side) (kind : OrderKind) : UInt32 :=
  let sideFlag := match side with
    | .sell => Action.sellFlag
    | .buy => 0
  let kindFlag := match kind with
    | .market => Action.immediateFlag
    | .limitMaker => Action.passiveFlag
    | .limit => 0
  sideFlag ||| kindFlag

/-- The factor by which a market order may be worse than its price. There is none where it
leaves the range of decimals. -/
def headroom? (side : Side) (slippage : Decimal) : Option Decimal :=
  match side with
  | .buy => Decimal.one.add? slippage
  | .sell => Decimal.one.sub? slippage

/-- An error of an amount as a failure to build the order. -/
def outOfRange {α : Type} (i : PricedOrder) (e : Except AmountError α) : Except BuildIssue α :=
  e.mapError (.outOfRange i.clientId)

/-- The price with the room that a market order has, and any other price as it is. -/
def roomyPrice? (i : PricedOrder) (slippage : Decimal) : Option (Except BuildIssue Decimal) :=
  if i.kind = .market then
    (headroom? i.side slippage).map fun room => i.outOfRange (i.price.product room)
  else some (.ok i.price)

/-- The amount and price in whole steps of a rule. -/
def quantized (i : PricedOrder) (rule : Option TradingRule) (price : Decimal) :
    Decimal × Decimal :=
  match rule with
  | some r => (r.floorAmount i.amount, r.floorPrice price)
  | none => (i.amount, price)

/-- The legs of the offer of an amount at a price, what a taker gets first. A buy gives quote and
wants base, a sell the other way round. -/
def legs (i : PricedOrder) (amount price : Decimal) :
    Except BuildIssue (WireAmount × WireAmount) := do
  let notional ← i.outOfRange (amount.product price)
  let base ← i.outOfRange (WireAmount.ofValue i.market.base amount)
  let quote ← i.outOfRange (WireAmount.ofValue i.market.quote notional)
  match i.side with
  | .buy => return (quote, base)
  | .sell => return (base, quote)

/-- The offer at a price, in whole steps of a rule. -/
def offerAt (i : PricedOrder) (account : String) (rule : Option TradingRule) (price : Decimal) :
    Except BuildIssue Transaction := do
  let (amount, price) := i.quantized rule price
  if !amount.isPositive || !price.isPositive then
    throw (.notPositive i.clientId amount price)
  let (gets, pays) ← i.legs amount price
  return .draft account (.create gets pays (flagsOf i.side i.kind)) i.clientId

/-- The transaction that places an order. There is no result where the room of a market order
leaves the range of decimals. -/
def build? (i : PricedOrder) (account : String) (rule : Option TradingRule)
    (slippage : Decimal) : Option (Except BuildIssue Transaction) :=
  (i.roomyPrice? slippage).map fun price => do i.offerAt account rule (← price)

end PricedOrder

/-- The transaction that cancels an offer. -/
def Transaction.cancelOf (account : String) (offerSequence : UInt32) (clientId : String) :
    Transaction :=
  .draft account (.cancel offerSequence) clientId

end OfferDesk
