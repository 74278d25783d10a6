-- The desk that a trading client sits at: its orders, its books, and what it knows of its markets.
-- What it does with the ledger takes several requests. In between other work may change the desk,
-- so nothing that was read before a request counts after it.
import OfferDesk.Book.Live
import OfferDesk.Config
import OfferDesk.Fills
import OfferDesk.Ledger.Inquiry
import OfferDesk.Transaction

namespace OfferDesk

/-! ## What the desk knows of its markets -/

/-- Rules and balances, as they were last read. -/
structure TradingTerms where
  tradingRules : Table String TradingRule
  feeRules : Table String FeeRule
  balances : Balances
  refreshed : Stamp
deriving DecidableEq, Inhabited

namespace TradingTerms

/-- What is known before anything was read. -/
def unread : TradingTerms := ⟨.empty, .empty, .empty, .at 0⟩

/-- What follows from the rules of the issuers and a reading of the balances. -/
def ofRules (infos : List RuleInfo) (balances : Balances) : TradingTerms where
  tradingRules := .ofList (infos.map fun i => (i.pair, i.tradingRule))
  feeRules := .ofList (infos.map fun i => (i.pair, i.feeRule))
  balances := balances
  refreshed := .moment

/-- New balances under the old rules. -/
def withBalances (m : TradingTerms) (balances : Balances) : TradingTerms :=
  { m with balances := balances, refreshed := .moment }

def toJson (momentText : String) (m : TradingTerms) : Json := .object [
  ("trading_rules", .ofEntries (·.toJson) m.tradingRules.entries),
  ("fee_rules", .ofEntries (·.toJson) m.feeRules.entries),
  ("balances", m.balances.toJson),
  ("refreshed_at", m.refreshed.toJson momentText)]

end TradingTerms

/-! ## The desk -/

structure Signer where
  account : String
  sign : Transaction → Except String SignedTransaction

/-- What stays the same about a desk. -/
structure Desk where
  signer : Signer
  config : Config
  markets : Table String Market

/-- What changes about a desk. -/
structure DeskState where
  terms : TradingTerms := .unread
  register : OrderRegister := .empty
  books : Table String LiveBook := .empty
  /-- What was reported to the client, in order. -/
  events : List OrderEvent := []
  /-- The transactions that were signed, in order, as they were before. -/
  signed : List Transaction := []
  /-- The second it is. -/
  now : Nat := 0
deriving DecidableEq, Inhabited

namespace Desk

/-- The desk of a configuration, if all of its markets are in order. -/
def new (signer : Signer) (config : Config) : Except Failure Desk := do
  return ⟨signer, config, ← config.allMarkets⟩

def account (d : Desk) : String := d.signer.account

def market (d : Desk) (pair : String) : Except Failure Market :=
  match d.markets.find? pair with
  | some m => .ok m
  | none => .error (.unknownPair pair)

def activeMarkets (d : Desk) : List Market := d.config.activePairs.filterMap d.markets.find?

/-- Milliseconds between two looks at a submitted transaction. -/
def pollInterval (d : Desk) : Nat := d.config.pollInterval.toNat

end Desk

namespace DeskState

def report (s : DeskState) (events : List OrderEvent) : DeskState :=
  { s with events := s.events ++ events }

def track (s : DeskState) (o : Order) : DeskState := { s with register := s.register.track o }

def untrack (s : DeskState) (clientId : String) : DeskState :=
  { s with register := s.register.untrack clientId }

def order? (s : DeskState) (clientId : String) : Option Order := s.register.find? clientId

/-- Whether an order is tracked in a state. -/
def isIn (s : DeskState) (clientId : String) (state : OrderState) : Bool :=
  (s.order? clientId).map (·.state) = some state

/-- Moves an order to a state, and reports that if it did move. -/
def move (s : DeskState) (clientId : String) (state : OrderState) : DeskState :=
  match s.register.move? clientId state with
  | some (register, o) => { s with register := register }.report [o.update .moment]
  | none => s

/-- Patches every live book with a transaction. There is no result where an amount leaves the
range of decimals. -/
def patchBooks? (s : DeskState) (o : Outcome) : Option DeskState := do
  return { s with books := ← s.books.map? fun b => (b.applyOutcome? o).map (·.1) }

/-- Applies a transaction to the orders, under the fee rules of the moment. There is no result
where an amount leaves the range of decimals. -/
def applyFills? (s : DeskState) (d : Desk) (o : Outcome) : Option DeskState := do
  let (register, events) ←
    (Trader.mk d.account d.markets s.terms.feeRules).process? o s.register
  return { s with register := register }.report events

def sign (s : DeskState) (d : Desk) (t : Transaction) :
    DeskState × Except BuildIssue SignedTransaction :=
  match d.signer.sign t with
  | .ok signed => ({ s with signed := s.signed ++ [t] }, .ok signed)
  | .error text => (s, .error (.signer text))

end DeskState

/-- One step of some work at the desk: the desk after it, and how far the work has come. -/
abbrev Turn (σ α : Type) := DeskState × Progress σ α

namespace Turn

variable {σ τ α β : Type}

/-- The same turn of a larger piece of work: its states are put into the larger ones, and its
result is carried on at the desk. -/
def andThen (t : Turn σ α) (embed : σ → τ) (next : DeskState → α → Turn τ β) : Turn τ β :=
  match t.2 with
  | .ask pause request w => (t.1, .ask pause request (embed w))
  | .done a => next t.1 a
  | .halted => (t.1, .halted)

end Turn

end OfferDesk
