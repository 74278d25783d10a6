-- Markets: pairs of currencies under a name, and how they are written in a configuration.
import OfferDesk.Failure
import OfferDesk.Table

namespace OfferDesk

/-- A market as it is configured: symbols and issuers, with none for the native currency. -/
structure MarketConfig where
  base : String
  baseIssuer : Option String
  quote : String
  quoteIssuer : Option String
deriving DecidableEq, Inhabited

/-- A pair of currencies that trade against each other. -/
structure Market where
  pair : String
  base : Currency
  quote : Currency
deriving DecidableEq, Inhabited

namespace Market

/-- The currency of a configured symbol. -/
def currencyOf (symbol : String) : Option String → Except Failure Currency
  | some issuer => (Currency.issuedAs symbol issuer).mapError .malformedAmount
  | none =>
    if Text.sameUpToCase symbol.toList Currency.nativeSymbol.toList then .ok .native
    else .error (.unexpected (.noIssuer symbol))

def ofConfig (pair : String) (config : MarketConfig) : Except Failure Market := do
  return ⟨pair, ← currencyOf config.base config.baseIssuer,
    ← currencyOf config.quote config.quoteIssuer⟩

/-- The issuers of the two currencies, the base first. -/
def issuers (m : Market) : List String := m.base.issuer?.toList ++ m.quote.issuer?.toList

end Market

namespace MarketConfig

def defaults : Table String MarketConfig := .ofList [
  ("SOLO-XRP", ⟨"SOLO", some "rsoLo2S1kiGeCcn6hCUXVrCpGMWLrRrLZz", "XRP", none⟩),
  ("SOLO-USD", ⟨"SOLO", some "rsoLo2S1kiGeCcn6hCUXVrCpGMWLrRrLZz", "USD",
    some "rhub8VRN55s94qWKDv6jmDy1pUykJzF3wq"⟩)]

def ofJson? (j : Json) : Option MarketConfig := do
  let fields ← j.fieldsOf? ["base", "base_issuer", "quote", "quote_issuer"]
  return {
    base := ← fields.required "base" Json.string?
    baseIssuer := ← fields.optional "base_issuer" Json.string?
    quote := ← fields.required "quote" Json.string?
    quoteIssuer := ← fields.optional "quote_issuer" Json.string? }

def toJson (c : MarketConfig) : Json :=
  .object ([("base", .string c.base)] ++ Json.fieldIfSome "base_issuer" .string c.baseIssuer ++
    [("quote", .string c.quote)] ++ Json.fieldIfSome "quote_issuer" .string c.quoteIssuer)

end MarketConfig

def Market.toJson (m : Market) : Json :=
  .object [("trading_pair", .string m.pair), ("base", m.base.toJson), ("quote", m.quote.toJson)]

end OfferDesk
