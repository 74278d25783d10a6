-- The survey of the issuers: each is asked once, and a market has rules where all of its issuers
-- answered.
import OfferDesk.Ledger.Inquiry
import OfferDesk.Rule

namespace OfferDesk

abbrev IssuerInfos := Table String (Except Failure Json)

namespace IssuerInfos

/-- What a reply says of an issuer: the data of its account. -/
def ofReply (issuer : String) : Reply → Except Failure Json
  | .error text => .error (.issuerUnavailable issuer text)
  | .ok a =>
    if a.success then
      match a.result.field? "account_data" with
      | some data => .ok data
      | none => .error (.issuerUnavailable issuer "response has no account_data")
    else .error (.issuerUnavailable issuer (a.errorCode?.getD "error response"))

/-- What is known of the issuer of a currency; nothing is needed of the native one. -/
def of? (infos : IssuerInfos) (currency : Currency) : Option (Option Json) :=
  match currency.issuer? with
  | none => some none
  | some issuer =>
    match infos.find? issuer with
    | some (.ok info) => some (some info)
    | _ => none

/-- The rules of a market whose issuers are all known. -/
def ruleInfo? (infos : IssuerInfos) (overrides : Table String RuleOverrides) (market : Market) :
    Option RuleInfo := do
  let base ← infos.of? market.base
  let quote ← infos.of? market.quote
  return .derive market base quote ((overrides.find? market.pair).getD {})

/-- The rules of all markets that have them. -/
def rules (infos : IssuerInfos) (overrides : Table String RuleOverrides) (markets : List Market) :
    Table String RuleInfo :=
  .ofList (markets.filterMap fun m => (infos.ruleInfo? overrides m).map (m.pair, ·))

end IssuerInfos

structure Survey where
  markets : List Market
  overrides : Table String RuleOverrides
  issuer : String
  /-- The issuers still to be asked. -/
  rest : List String
  known : IssuerInfos

namespace Survey

abbrev Result := Table String RuleInfo

/-- The issuers of some markets, each once, in the order in which they come up. -/
def issuersOf (markets : List Market) : List String :=
  (markets.flatMap (·.issuers)).foldl (fun seen i => if i ∈ seen then seen else seen ++ [i]) []

/-- Asks the next issuer, or gives the rules when all were asked. -/
def next (markets : List Market) (overrides : Table String RuleOverrides) (known : IssuerInfos) :
    List String → Progress Survey Result
  | [] => .done (known.rules overrides markets)
  | issuer :: rest => .ask 0 (.accountInfo issuer) ⟨markets, overrides, issuer, rest, known⟩

def start (markets : List Market) (overrides : Table String RuleOverrides) :
    Progress Survey Result :=
  next markets overrides .empty (issuersOf markets)

def resume (s : Survey) (reply : Reply) : Progress Survey Result :=
  next s.markets s.overrides (s.known.put s.issuer (IssuerInfos.ofReply s.issuer reply)) s.rest

def sorted (infos : Result) : List RuleInfo := infos.values.mergeSort (·.pair ≤ ·.pair)

end Survey

end OfferDesk
