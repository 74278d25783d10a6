-- What can go wrong between a client and the ledger, and how it is put in words.
import OfferDesk.Amount
import OfferDesk.Order.Basic

namespace OfferDesk

/-! ## Talking to the ledger -/

/-- A failed exchange with the ledger. -/
inductive LedgerTrouble where
  /-- The request did not get through. -/
  | unanswered (text : String)
  /-- The ledger refused a request, with its code if it gave one. -/
  | refused (request : String) (code : Option String)
  /-- An answer lacks a field. -/
  | lacks (answer field : String)
  /-- A number in an answer does not fit 32 bits. -/
  | beyondWord
  /-- There is no room for the last ledger of a transaction after this one. -/
  | noLedgerAfter (index : Nat)
deriving DecidableEq, Inhabited

namespace LedgerTrouble

def message : LedgerTrouble → String
  | unanswered text => text
  | refused request code => request ++ " failed: " ++ code.getD "unknown error"
  | lacks answer field => answer ++ " has no " ++ field
  | beyondWord => "out of range integral type conversion attempted"
  | noLedgerAfter index => "LastLedgerSequence past ledger " ++ toString index ++ " overflows"

end LedgerTrouble

/-! ## Building and signing a transaction -/

inductive BuildIssue where
  /-- A leg of the order is no amount that can be written. -/
  | outOfRange (order : String) (error : AmountError)
  | notPositive (order : String) (amount price : Decimal)
  | noPrice (kind : OrderKind) (order : String)
  | noLiquidity (pair : String)
  | ledger (trouble : LedgerTrouble)
  | signer (text : String)
  /-- The signed transaction has no sequence or no last ledger. -/
  | unnumbered
deriving DecidableEq, Inhabited

namespace BuildIssue

def message : BuildIssue → String
  | outOfRange order error => "order " ++ order ++ ": " ++ error.message
  | notPositive order amount price =>
    "order " ++ order ++ " has non-positive amount " ++ amount.text ++ " or price " ++ price.text
  | noPrice kind order => kind.title ++ " order " ++ order ++ " has no price"
  | noLiquidity pair => "no liquidity on " ++ pair ++ " to price a market order"
  | ledger trouble => trouble.message
  | signer text => text
  | unnumbered => "signed transaction has no Sequence or LastLedgerSequence"

end BuildIssue

/-! ## Answers that make no sense -/

inductive Unexpected where
  | noIssuer (symbol : String)
  | legChanged (before after : Currency)
  | exchangeId (text : String)
  | transactionEvent
  | lookupResult
  | noAccountData
  | noBalance
deriving DecidableEq, Inhabited

namespace Unexpected

/-- What was found; an event and a lookup that do not decode are named by their kind alone. -/
def detail : Unexpected → String
  | noIssuer symbol => "issued currency " ++ symbol ++ " configured without an issuer"
  | legChanged before after =>
    "offer leg changed currency from " ++ before.text ++ " to " ++ after.text
  | exchangeId text => "malformed exchange order id '" ++ text ++ "'"
  | transactionEvent => "transaction event"
  | lookupResult => "tx result"
  | noAccountData => "account_info has no account_data"
  | noBalance => "account_data has no Balance"

/-- Whether what was found is the message by itself. -/
def standsAlone : Unexpected → Bool
  | transactionEvent | lookupResult => true
  | _ => false

def message (u : Unexpected) : String :=
  if u.standsAlone then u.detail else "unexpected ledger response: " ++ u.detail

end Unexpected

/-! ## Failures -/

inductive Failure where
  | malformedAmount (error : AmountError)
  | unknownPair (pair : String)
  | build (issue : BuildIssue)
  /-- The ledger took no transaction in up to its last ledger. -/
  | expired (order exchangeId : String)
  /-- The ledger could not be asked what became of a transaction. -/
  | unverified (order exchangeId : String)
  | rejected (order exchangeId code : String)
  | issuerUnavailable (issuer reason : String)
  | unexpected (what : Unexpected)
deriving DecidableEq, Inhabited

namespace Failure

def message : Failure → String
  | malformedAmount error => error.message
  | unknownPair pair => "Market " ++ pair ++ " not found in markets list"
  | build issue => issue.message
  | expired order exchangeId =>
    "Failed to verify transaction result for order " ++ order ++ " (" ++ exchangeId ++ ")"
  | unverified order exchangeId => "Failed to place order " ++ order ++ " (" ++ exchangeId ++ ")"
  | rejected order exchangeId code =>
    "transaction for order " ++ order ++ " (" ++ exchangeId ++
      ") rejected by ledger with engine result " ++ code
  | issuerUnavailable issuer reason =>
    "account info for issuer " ++ issuer ++ " unavailable: " ++ reason
  | unexpected what => what.message

end Failure

/-- A failure, or a failed exchange with the ledger on the way. -/
inductive Trouble where
  | ledger (trouble : LedgerTrouble)
  | failure (failure : Failure)
deriving DecidableEq, Inhabited

def Trouble.message : Trouble → String
  | ledger t => t.message
  | failure f => f.message

/-! ## Orders that fail -/

inductive OrderError where
  | creationFailed (order : String) (exchangeId : Option String) (reason : Failure)
  | unknownOrder (order : String)
  | duplicateSequence (order : String) (sequence : UInt32) (owner : String)
deriving DecidableEq, Inhabited

namespace OrderError

def message : OrderError → String
  | creationFailed order exchangeId reason =>
    "Order " ++ exchangeId.getD "None" ++ " (" ++ order ++ ") creation failed: " ++ reason.message
  | unknownOrder order => "Order " ++ order ++ " is not tracked"
  | duplicateSequence order sequence owner =>
    "Order " ++ order ++ ": sequence " ++ toString sequence.toNat ++ " already belongs to order " ++
      owner

end OrderError

/-- The failure of reading an exchange id. -/
def ExchangeId.parse (s : String) : Except Failure ExchangeId :=
  match ExchangeId.read? s with
  | some id => .ok id
  | none => .error (.unexpected (.exchangeId s))

end OfferDesk
