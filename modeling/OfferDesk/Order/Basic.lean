-- Orders of a client: their states, what has been executed of them, and the events that report
-- on them.
import OfferDesk.Json.Record

namespace OfferDesk

/-! ## States -/

inductive OrderState where
  | pendingCreate
  | opened
  | partiallyFilled
  | pendingCancel
  | filled
  | canceled
  | failed
deriving DecidableEq, Inhabited

namespace OrderState

def text : OrderState → String
  | pendingCreate => "PENDING_CREATE"
  | opened => "OPEN"
  | partiallyFilled => "PARTIALLY_FILLED"
  | pendingCancel => "PENDING_CANCEL"
  | filled => "FILLED"
  | canceled => "CANCELED"
  | failed => "FAILED"

def all : List OrderState :=
  [pendingCreate, opened, partiallyFilled, pendingCancel, filled, canceled, failed]

def ofText? (s : String) : Option OrderState := all.find? (·.text == s)

/-- A state that an order never leaves. -/
def isTerminal : OrderState → Bool
  | filled | canceled | failed => true
  | _ => false

/-- Whether an order may move from one state to another. Nothing leaves a terminal state or goes
back to the first one, and a cancel can only be under way for an order that the ledger knows. -/
def canMoveTo (state next : OrderState) : Bool :=
  if state.isTerminal then false
  else
    match state, next with
    | _, pendingCreate => false
    | pendingCreate, pendingCancel => false
    | _, _ => true

end OrderState

/-! ## Sides and kinds -/

inductive Side where
  | buy
  | sell
deriving DecidableEq, Inhabited

def Side.text : Side → String
  | buy => "BUY"
  | sell => "SELL"

def Side.ofText? (s : String) : Option Side := [Side.buy, .sell].find? (·.text == s)

inductive OrderKind where
  | market
  | limit
  | limitMaker
deriving DecidableEq, Inhabited

namespace OrderKind

def text : OrderKind → String
  | market => "MARKET"
  | limit => "LIMIT"
  | limitMaker => "LIMIT_MAKER"

/-- The name in running text. -/
def title : OrderKind → String
  | market => "Market"
  | limit => "Limit"
  | limitMaker => "LimitMaker"

def ofText? (s : String) : Option OrderKind := [market, limit, limitMaker].find? (·.text == s)

end OrderKind

/-! ## The ledger's handle on an order -/

/-- The sequence of the transaction that created an order, and the last ledger that could take
the transaction in. -/
structure ExchangeId where
  sequence : UInt32
  lastLedger : UInt32
deriving DecidableEq, Inhabited

namespace ExchangeId

def chars (id : ExchangeId) : List Char :=
  Nat.toDigits 10 id.sequence.toNat ++ '-' :: Nat.toDigits 10 id.lastLedger.toNat

def text (id : ExchangeId) : String := String.ofList id.chars

/-- The two numbers before and after the first dash. -/
def read? (s : String) : Option ExchangeId := do
  let cs := s.toList
  match cs.dropWhile (· ≠ '-') with
  | _ :: rest => return ⟨← Text.word32? (cs.takeWhile (· ≠ '-')), ← Text.word32? rest⟩
  | [] => none

end ExchangeId

/-! ## Times -/

/-- A time in seconds since 1970 that the ledger or a client gave, or the moment at which it was
asked for. -/
inductive Stamp where
  | moment
  | at (seconds : UInt64)
deriving DecidableEq, Inhabited

namespace Stamp

/-- Seconds from the start of 1970 to the start of 2000, from where the ledger counts. -/
def ledgerEpoch : Nat := 946684800

/-- A close time of the ledger in seconds since 1970, if that fits 64 bits. -/
def unixSeconds? (seconds : UInt64) : Option UInt64 :=
  let sum := seconds.toNat + ledgerEpoch
  if sum < UInt64.size then some sum.toUInt64 else none

/-- The time of a transaction: its close time, or the moment where it has none. -/
def ofClose? : Option UInt64 → Option Stamp
  | some seconds => (unixSeconds? seconds).map .at
  | none => some .moment

end Stamp

/-! ## Orders -/

/-- An order as the client knows it, with everything the ledger told about it. -/
structure Order where
  clientId : String
  exchangeId : Option String
  pair : String
  side : Side
  kind : OrderKind
  amount : Decimal
  price : Option Decimal
  state : OrderState
  executedBase : Decimal
  executedQuote : Decimal
  created : Stamp
  /-- The transactions whose fills are counted, each once. -/
  appliedHashes : List String
deriving DecidableEq, Inhabited

namespace Order

/-- A new order that no ledger has seen. -/
def start (clientId pair : String) (side : Side) (kind : OrderKind) (amount : Decimal)
    (price : Option Decimal) (created : Stamp) : Order where
  clientId := clientId
  exchangeId := none
  pair := pair
  side := side
  kind := kind
  amount := amount
  price := price
  state := .pendingCreate
  executedBase := .zero
  executedQuote := .zero
  created := created
  appliedHashes := []

/-- The sequence in the exchange id, if one is assigned and well formed. -/
def sequence? (o : Order) : Option UInt32 :=
  (o.exchangeId.bind ExchangeId.read?).map (·.sequence)

/-- Whether the order can still change. -/
def isLive (o : Order) : Bool := !o.state.isTerminal

def isFullyExecuted (o : Order) : Bool := decide (o.amount ≤ o.executedBase)

/-- Whether the fill of a transaction is counted already. -/
def hasApplied (o : Order) (hash : String) : Bool := o.appliedHashes.contains hash

/-- Counts the fill of a transaction that is not counted yet; nothing where a sum leaves the
range of decimals. -/
def withFill? (o : Order) (hash : String) (base quote : Decimal) : Option Order := do
  let base ← o.executedBase.add? base
  let quote ← o.executedQuote.add? quote
  return { o with
    executedBase := base
    executedQuote := quote
    appliedHashes := o.appliedHashes ++ [hash] }

end Order

/-! ## Events -/

/-- The state an order has moved to, or was confirmed in by a fill. -/
structure OrderUpdate where
  clientId : String
  exchangeId : Option String
  pair : String
  state : OrderState
  time : Stamp
deriving DecidableEq, Inhabited

/-- A fee, in the token that a fill brings in. -/
structure TradeFee where
  token : String
  amount : Decimal
deriving DecidableEq, Inhabited

structure Trade where
  tradeId : String
  clientId : String
  exchangeId : String
  pair : String
  price : Decimal
  amount : Decimal
  quoteAmount : Decimal
  fee : TradeFee
  time : Stamp
deriving DecidableEq, Inhabited

inductive OrderEvent where
  | order (update : OrderUpdate)
  | trade (trade : Trade)
deriving DecidableEq, Inhabited

def OrderEvent.clientId : OrderEvent → String
  | order u => u.clientId
  | trade t => t.clientId

/-- The report that an order is in its present state. -/
def Order.update (o : Order) (time : Stamp) : OrderEvent :=
  .order ⟨o.clientId, o.exchangeId, o.pair, o.state, time⟩

/-! ## Records -/

/-- A time as a number, or as `momentText` where it is no fixed one. -/
def Stamp.toJson (momentText : String) : Stamp → Json
  | moment => .string momentText
  | .at seconds => .ofWord64 seconds

def TradeFee.toJson (f : TradeFee) : Json :=
  .object [("token", .string f.token), ("amount", .ofDecimal f.amount)]

def OrderEvent.toJson (momentText : String) : OrderEvent → Json
  | order u => .object [("Order", .object [
      ("client_order_id", .string u.clientId),
      ("exchange_order_id", .ofOption .string u.exchangeId),
      ("trading_pair", .string u.pair),
      ("new_state", .string u.state.text),
      ("update_timestamp", u.time.toJson momentText)])]
  | trade t => .object [("Trade", .object [
      ("trade_id", .string t.tradeId),
      ("client_order_id", .string t.clientId),
      ("exchange_order_id", .string t.exchangeId),
      ("trading_pair", .string t.pair),
      ("price", .ofDecimal t.price),
      ("amount", .ofDecimal t.amount),
      ("quote_amount", .ofDecimal t.quoteAmount),
      ("fee", t.fee.toJson),
      ("fill_timestamp", t.time.toJson momentText)])]

def Order.sortedHashes (o : Order) : List String := o.appliedHashes.mergeSort (· ≤ ·)

def Order.toJson (momentText : String) (o : Order) : Json := .object [
  ("client_order_id", .string o.clientId),
  ("exchange_order_id", .ofOption .string o.exchangeId),
  ("trading_pair", .string o.pair),
  ("trade_type", .string o.side.text),
  ("order_type", .string o.kind.text),
  ("amount", .ofDecimal o.amount),
  ("price", .ofOption .ofDecimal o.price),
  ("state", .string o.state.text),
  ("executed_amount_base", .ofDecimal o.executedBase),
  ("executed_amount_quote", .ofDecimal o.executedQuote),
  ("creation_timestamp", o.created.toJson momentText),
  ("applied_tx_hashes", .array (o.sortedHashes.map .string))]

end OfferDesk
