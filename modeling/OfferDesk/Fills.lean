-- What a transaction of the ledger does to the tracked orders. It can touch an order in two ways:
-- as its own offer that takes from others, found by the sequence of the transaction, or as a
-- resting offer that is taken from, found by the sequence of the offer. Each order counts a
-- transaction once.
import OfferDesk.Book.Sided
import OfferDesk.Order.Register
import OfferDesk.Rule

namespace OfferDesk

/-- Whose orders they are, and the markets and fees they trade under. -/
structure Trader where
  account : String
  markets : Table String Market
  feeRules : Table String FeeRule
deriving DecidableEq, Inhabited

/-- The register after a change, with the events that report it. -/
abbrev Reported := OrderRegister × List OrderEvent

namespace OrderRegister

/-- Moves an order and reports its state when it changed, or when a new fill left it in the state
it was in. -/
def report (r : OrderRegister) (clientId : String) (state : OrderState) (isFill : Bool)
    (time : Stamp) : Reported :=
  match r.move? clientId state with
  | some (r, o) => (r, [o.update time])
  | none =>
    match r.find? clientId with
    | some o => if isFill ∧ o.state = state then (r, [o.update time]) else (r, [])
    | none => (r, [])

end OrderRegister

/-! ## One fill -/

/-- What a transaction fills of an order. -/
structure Fill where
  hash : String
  /-- The sequence that the order was found by. -/
  sequence : UInt32
  base : Decimal
  quote : Decimal
  time : Stamp
deriving DecidableEq, Inhabited

namespace Fill

/-- The fee on a fill: by the rule of its pair, or none in the token it brings in. -/
def fee? (f : Fill) (ctx : Trader) (market : Market) (o : Order) : Option TradeFee :=
  match ctx.feeRules.find? o.pair with
  | some rule => rule.tradeFee? o.side f.base f.quote
  | none =>
    match o.side with
    | .buy => some ⟨market.base.symbol, .zero⟩
    | .sell => some ⟨market.quote.symbol, .zero⟩

/-- The trade that reports a fill. There is none where no base changed hands or the price cannot
be held. -/
def trades? (f : Fill) (ctx : Trader) (market : Market) (o : Order) :
    Option (List OrderEvent) :=
  if !f.base.isPositive then some []
  else
    match f.quote.div? f.base with
    | none => some []
    | some price => do
      let fee ← f.fee? ctx market o
      return [.trade {
        tradeId := f.hash ++ "-" ++ toString f.sequence.toNat
        clientId := o.clientId
        exchangeId := o.exchangeId.getD ""
        pair := o.pair
        price := price
        amount := f.base
        quoteAmount := f.quote
        fee := fee
        time := f.time }]

/-- Counts a fill that is not counted yet, and then moves the order to the state that follows
from it. There is no result where an amount leaves the range of decimals. -/
def count? (f : Fill) (ctx : Trader) (market : Market) (r : OrderRegister) (o : Order)
    (next : Order → OrderState) : Option Reported :=
  if o.hasApplied f.hash then some (r, [])
  else do
    let o ← o.withFill? f.hash f.base f.quote
    let trades ← f.trades? ctx market o
    let (r, reports) := (r.track o).report o.clientId (next o) f.base.isPositive f.time
    return (r, trades ++ reports)

end Fill

/-! ## Own transactions -/

namespace Trader

/-- Adds what a foreign offer gave to the base and quote of a taker. A node that cannot be read
or that is of another market gives nothing. -/
def addTaken? (market : Market) (sum : Decimal × Decimal) (n : AffectedNode) :
    Option (Decimal × Decimal) :=
  match n.change with
  | .error _ | .ok none => some sum
  | .ok (some c) => do
    let taken ← c.taken?
    match market.baseQuote? taken with
    | none => return sum
    | some (base, quote) => return (← sum.1.add? base, ← sum.2.add? quote)

/-- The base and quote that an account took from the offers of others. -/
def takenFrom? (ctx : Trader) (market : Market) (nodes : List AffectedNode) :
    Option (Decimal × Decimal) :=
  (nodes.filter (·.account? ≠ some ctx.account)).foldlM (addTaken? market) (.zero, .zero)

/-- Whether the offer of a sequence was left to rest. -/
def rests (ctx : Trader) (sequence : UInt32) (nodes : List AffectedNode) : Bool :=
  nodes.any fun n =>
    n.account? = some ctx.account && n.sequence? = some sequence && n.kind = .created

/-- The state of an order after its own offer: whether it rests, and whether it took anything.
What neither rests nor takes was killed. -/
def takerState (resting filled : Bool) : OrderState :=
  match resting, filled with
  | true, true => .partiallyFilled
  | true, false => .opened
  | false, true => .filled
  | false, false => .canceled

def ownCreate? (ctx : Trader) (o : Outcome) (time : Stamp) (r : OrderRegister) :
    Option Reported :=
  let sequence := o.transaction.sequence
  match r.resolve? sequence with
  | none => some (r, [])
  | some order =>
    if !o.isSuccess then some (r.report order.clientId .failed false time)
    else if o.nodes.isEmpty then some (r, [])
    else
      match ctx.markets.find? order.pair with
      | none => some (r, [])
      | some market => do
        let (base, quote) ← ctx.takenFrom? market o.offerNodes
        let resting := ctx.rests sequence o.offerNodes
        Fill.count? ⟨o.hash, sequence, base, quote, time⟩ ctx market r order
          fun _ => takerState resting base.isPositive

def ownCancel (o : Outcome) (time : Stamp) (r : OrderRegister) : Reported :=
  match o.transaction.offerSequence.bind r.resolve? with
  | none => (r, [])
  | some order => if o.isSuccess then r.report order.clientId .canceled false time else (r, [])

/-- Applies the account's own transaction, if it is one of an offer. -/
def ownTransaction? (ctx : Trader) (o : Outcome) (time : Stamp) (r : OrderRegister) :
    Option Reported :=
  if o.transaction.account = ctx.account then
    if o.transaction.kind = "OfferCreate" then ctx.ownCreate? o time r
    else if o.transaction.kind = "OfferCancel" then some (ownCancel o time r)
    else some (r, [])
  else some (r, [])

/-! ## Resting offers that are taken from -/

/-- Applies a change of a resting offer. One that is deleted untouched was cancelled, expired or
unfunded. -/
def makerNode? (ctx : Trader) (o : Outcome) (time : Stamp) (r : OrderRegister)
    (n : AffectedNode) : Option Reported :=
  if n.account? ≠ some ctx.account ∨ n.kind = .created then some (r, [])
  else
    match n.sequence? with
    | none => some (r, [])
    | some sequence =>
      match r.resolve? sequence with
      | none => some (r, [])
      | some order =>
        match n.change with
        | .error _ => some (r, [])
        | .ok none =>
          if n.kind = .deleted then some (r.report order.clientId .canceled false time)
          else some (r, [])
        | .ok (some c) => do
          let taken ← c.taken?
          match ctx.markets.find? order.pair with
          | none => return (r, [])
          | some market =>
            match market.baseQuote? taken with
            | none => return (r, [])
            | some (base, quote) =>
              Fill.count? ⟨o.hash, sequence, base, quote, time⟩ ctx market r order fun after =>
                if n.kind = .deleted ∨ after.isFullyExecuted then .filled else .partiallyFilled

/-- Applies the changes of resting offers one after another. -/
def makerNodes? (ctx : Trader) (o : Outcome) (time : Stamp) (r : OrderRegister) :
    List AffectedNode → Option Reported
  | [] => some (r, [])
  | n :: ns => do
    let (r, first) ← ctx.makerNode? o time r n
    let (r, rest) ← ctx.makerNodes? o time r ns
    return (r, first ++ rest)

/-- Applies the resting offers of a transaction, if that succeeded. -/
def makerFills? (ctx : Trader) (o : Outcome) (time : Stamp) (r : OrderRegister) :
    Option Reported :=
  if o.isSuccess then ctx.makerNodes? o time r o.offerNodes else some (r, [])

/-- Applies a transaction to the tracked orders and gives the events in the order in which they
happened. Only a validated one does anything. There is no result where an amount leaves the
range of decimals or a time that of its word. -/
def process? (ctx : Trader) (o : Outcome) (r : OrderRegister) : Option Reported :=
  if !o.validated then some (r, [])
  else do
    let time ← Stamp.ofClose? o.date
    let (r, own) ← ctx.ownTransaction? o time r
    let (r, made) ← ctx.makerFills? o time r
    return (r, own ++ made)

end Trader

end OfferDesk
