-- Placing an order: it is tracked first, then priced, built, filled in and signed, then submitted
-- under its exchange id, and in the end the ledger's verdict is waited for.
import OfferDesk.Desk.BookView
import OfferDesk.Submission.Autofill
import OfferDesk.Submission.Build
import OfferDesk.Submission.Finality

namespace OfferDesk

/-! ## Submitting -/

/-- What the ledger expects of a submitted transaction. A submission that did not get through, or
was answered with an error, leaves nothing to expect. -/
def Reply.preliminary? : Reply → Option String
  | .ok a => if a.success then a.engineResult? else none
  | .error _ => none

/-! ## Placing -/

structure PlaceOrder where
  clientId : String
  pair : String
  amount : Decimal
  side : Side
  kind : OrderKind
  price : Option Decimal
deriving DecidableEq, Inhabited

def PlaceOrder.toOrder (o : PlaceOrder) : Order :=
  .start o.clientId o.pair o.side o.kind o.amount o.price .moment

/-- What a placement waits for: the book that prices it, what its transaction is filled in with,
the answer to its submission, or the verdict on it. -/
inductive Placing.Stage where
  | pricing (market : Market) (view : BookView)
  | filling (autofill : Autofill)
  | submitting (id : ExchangeId) (signed : SignedTransaction)
  | watching (id : ExchangeId) (watch : Watch)
deriving DecidableEq, Inhabited

structure Placing where
  order : PlaceOrder
  stage : Placing.Stage
deriving DecidableEq, Inhabited

namespace Placing

/-- The exchange id of the placed order, or why it failed. -/
abbrev Result := Except OrderError String

/-- Gives an order up for a reason. -/
def fail (s : DeskState) (o : PlaceOrder) (id : Option ExchangeId) (reason : Failure) :
    Turn Placing Result :=
  (s.move o.clientId .failed,
    .done (.error (.creationFailed o.clientId (id.map (·.text)) reason)))

/-- Ends a placement with the verdict. The order may have come further already by what the
stream brought; only one that has not is opened. -/
def finish (d : Desk) (o : PlaceOrder) (id : ExchangeId) (s : DeskState) (v : Finality) :
    Turn Placing Result :=
  match v.verdict o.clientId id.text with
  | .error e => fail s o (some id) e
  | .ok outcome =>
    match s.applyFills? d outcome with
    | none => (s, .halted)
    | some s =>
      let s := if s.isIn o.clientId .pendingCreate then s.move o.clientId .opened else s
      (s, .done (.ok id.text))

def watch (d : Desk) (o : PlaceOrder) (id : ExchangeId) (s : DeskState)
    (p : Progress Watch Finality) : Turn Placing Result :=
  Turn.andThen (s, p) (⟨o, .watching id ·⟩) (finish d o id)

/-- Submits a signed transaction. The order gets its exchange id before that, so that the stream
can find it. -/
def submit (o : PlaceOrder) (s : DeskState) (signed : SignedTransaction) :
    Turn Placing Result :=
  match signed.transaction.sequence, signed.transaction.lastLedger with
  | some sequence, some last =>
    let id : ExchangeId := ⟨sequence, last⟩
    match s.register.assign o.clientId id with
    | .error e => (s.move o.clientId .failed, .done (.error e))
    | .ok register =>
      ({ s with register := register }, .ask 0 (.submit signed.blob) ⟨o, .submitting id signed⟩)
  | _, _ => fail s o none (.build .unnumbered)

def filled (d : Desk) (o : PlaceOrder) (s : DeskState) : Autofill.Result → Turn Placing Result
  | .error e => fail s o none (.build (.ledger e))
  | .ok t =>
    match s.sign d t with
    | (s, .error e) => fail s o none (.build e)
    | (s, .ok signed) => submit o s signed

def fill (d : Desk) (o : PlaceOrder) (s : DeskState) (p : Progress Autofill Autofill.Result) :
    Turn Placing Result :=
  Turn.andThen (s, p) (⟨o, .filling ·⟩) (filled d o)

/-- Builds the transaction of an order at a price. -/
def build (d : Desk) (o : PlaceOrder) (market : Market) (s : DeskState) (price : Decimal) :
    Turn Placing Result :=
  let priced : PricedOrder := ⟨o.clientId, market, o.side, o.kind, o.amount, price⟩
  match priced.build? d.account (s.terms.tradingRules.find? o.pair) d.config.slippage with
  | none => (s, .halted)
  | some (.error e) => fail s o none (.build e)
  | some (.ok t) => fill d o s (Autofill.start t d.config.ledgerOffset)

/-- The best price on the side that an order takes from. -/
def bestPrice? (side : Side) (book : OrderBook) : Option Decimal :=
  match side with
  | .buy => book.bestAsk.map (·.price)
  | .sell => book.bestBid.map (·.price)

def priced (d : Desk) (o : PlaceOrder) (market : Market) (s : DeskState) :
    BookView.Result → Turn Placing Result
  | .error e => fail s o none (.build (.ledger e))
  | .ok book =>
    match bestPrice? o.side book with
    | some price => build d o market s price
    | none => fail s o none (.build (.noLiquidity o.pair))

/-- Waits for the book that prices a market order. -/
def price (d : Desk) (o : PlaceOrder) (market : Market) (t : Turn BookView BookView.Result) :
    Turn Placing Result :=
  Turn.andThen t (⟨o, .pricing market ·⟩) (priced d o market)

def start (d : Desk) (s : DeskState) (o : PlaceOrder) : Turn Placing Result :=
  let s := s.track o.toOrder
  match d.market o.pair with
  | .error e => fail s o none e
  | .ok market =>
    match o.price with
    | some p => build d o market s p
    | none =>
      if o.kind = .market then price d o market (BookView.start d s market)
      else fail s o none (.build (.noPrice o.kind o.clientId))

def resume (d : Desk) (s : DeskState) (w : Placing) (reply : Reply) : Turn Placing Result :=
  match w.stage with
  | .pricing market view => price d w.order market (view.resume d s reply)
  | .filling autofill => fill d w.order s (autofill.resume reply)
  | .submitting id signed =>
    watch d w.order id s (Watch.start (some signed) reply.preliminary? d.pollInterval)
  | .watching id w' => watch d w.order id s (w'.resume reply)

end Placing

end OfferDesk
