-- The configuration of a client: the node it talks to, the markets it serves, and how it trades
-- there. Whatever a configuration leaves out has a standard value.
import OfferDesk.Balances
import OfferDesk.Rule

namespace OfferDesk

structure Config where
  /-- Where the node is called. -/
  nodeUrl : String := "https://s1.ripple.com:51234"
  /-- How often a failed call is tried again. -/
  retries : UInt32 := 5
  account : Option String := none
  markets : Table String MarketConfig := MarketConfig.defaults
  /-- The pairs that are served; all markets if there are none. -/
  pairs : List String := []
  overrides : Table String RuleOverrides := .empty
  /-- Seconds after which a book is built anew. -/
  resetInterval : UInt64 := 60
  /-- Milliseconds between two looks at a submitted transaction. -/
  pollInterval : UInt64 := 1000
  /-- For how many ledgers a transaction may be taken in. -/
  ledgerOffset : UInt32 := 20
  /-- The most offers to ask for in one direction of a book. -/
  offersLimit : UInt32 := 100
  reserve : Reserve := .standard
  /-- By what part of its price a market order may be worse than that. -/
  slippage : Decimal := .tenth 3
deriving Inhabited

namespace Config

/-- The configuration with the node's address from the environment, unless that is blank. -/
def withNodeUrl (c : Config) : Option String → Config
  | some url => if (Text.trim url.toList).isEmpty then c else { c with nodeUrl := url }
  | none => c

/-- A market that is configured under a pair. -/
def market (c : Config) (pair : String) : Except Failure Market :=
  match c.markets.find? pair with
  | some config => Market.ofConfig pair config
  | none => .error (.unknownPair pair)

def allMarkets (c : Config) : Except Failure (Table String Market) := do
  let markets ← c.markets.keys.mapM c.market
  return .ofList (markets.map fun m => (m.pair, m))

/-- A sorted list with each of its members once. -/
def sortedOnce (names : List String) : List String :=
  (names.mergeSort (· ≤ ·)).foldr
    (fun name rest => if rest.head? = some name then rest else name :: rest) []

/-- The pairs in service, sorted and each once. -/
def activePairs (c : Config) : List String :=
  sortedOnce (if c.pairs.isEmpty then c.markets.keys else c.pairs)

/-! ## Records -/

def names : List String := ["rpc_url", "rpc_retries", "account", "markets", "trading_pairs",
  "rule_hints", "order_book_reset_interval_secs", "poll_interval_ms", "last_ledger_offset",
  "book_offers_limit", "reserve", "market_order_slippage"]

/-- A table of values that each decode. -/
def tableOf? {α : Type} (decode : Json → Option α) (j : Json) : Option (Table String α) :=
  (Json.mapOf? decode j).map .ofList

def ofJson? (j : Json) : Option Config := do
  let fields ← j.fieldsOf? names
  let standard : Config := {}
  return {
    nodeUrl := ← fields.defaulted "rpc_url" Json.string? standard.nodeUrl
    retries := ← fields.defaulted "rpc_retries" Json.word32? standard.retries
    account := ← fields.optional "account" Json.string?
    markets := ← fields.defaulted "markets" (tableOf? MarketConfig.ofJson?) standard.markets
    pairs := ← fields.defaulted "trading_pairs" (Json.listOf? Json.string?) standard.pairs
    overrides := ← fields.defaulted "rule_hints" (tableOf? RuleOverrides.ofJson?) standard.overrides
    resetInterval :=
      ← fields.defaulted "order_book_reset_interval_secs" Json.word64? standard.resetInterval
    pollInterval := ← fields.defaulted "poll_interval_ms" Json.word64? standard.pollInterval
    ledgerOffset := ← fields.defaulted "last_ledger_offset" Json.word32? standard.ledgerOffset
    offersLimit := ← fields.defaulted "book_offers_limit" Json.word32? standard.offersLimit
    reserve := ← fields.defaulted "reserve" Reserve.ofJson? standard.reserve
    slippage := ← fields.defaulted "market_order_slippage" Json.decimal? standard.slippage }

/-- The configuration in a text. A text in which a setting is repeated has none. -/
def ofText? (text : String) : Option Config := do ofJson? (← Json.read? text)

def toJson (c : Config) : Json := .object [
  ("rpc_url", .string c.nodeUrl),
  ("rpc_retries", .ofWord32 c.retries),
  ("account", .ofOption .string c.account),
  ("markets", .ofEntries (·.toJson) c.markets.entries),
  ("trading_pairs", .array (c.pairs.map .string)),
  ("rule_hints", .ofEntries (·.toJson) c.overrides.entries),
  ("order_book_reset_interval_secs", .ofWord64 c.resetInterval),
  ("poll_interval_ms", .ofWord64 c.pollInterval),
  ("last_ledger_offset", .ofWord32 c.ledgerOffset),
  ("book_offers_limit", .ofWord32 c.offersLimit),
  ("reserve", c.reserve.toJson),
  ("market_order_slippage", .ofDecimal c.slippage)]

end Config

end OfferDesk
