-- Fetching the offers of a market: one request for each direction.
import OfferDesk.Book.Live
import OfferDesk.Ledger.Inquiry

namespace OfferDesk

/-- What a fetch waits for: the offers of the base currency, or those of the quote currency after
them. -/
inductive BookFetch.Stage where
  | base
  | quote (read : OfferSnapshot)
deriving DecidableEq, Inhabited

structure BookFetch where
  market : Market
  /-- The most offers to ask for in one direction. -/
  limit : UInt32
  stage : BookFetch.Stage
deriving DecidableEq, Inhabited

namespace BookFetch

abbrev Result := Except LedgerTrouble OfferSnapshot

/-- Asks for the offers of the base currency first. -/
def start (market : Market) (limit : UInt32) : Progress BookFetch Result :=
  .ask 0 (.bookOffers market.base market.quote limit) ⟨market, limit, .base⟩

/-- The offers in an answer; an entry that does not decode is left out. -/
def offersOf (result : Json) : List Offer :=
  (((result.field? "offers").bind Json.array?).getD []).filterMap Offer.ofJson?

/-- The ledger that an answer was read from. -/
def ledgerOf? (result : Json) : Option UInt32 :=
  (result.field? "ledger_index" <|> result.field? "ledger_current_index").bind Json.word32?

/-- The later of two ledgers, where they are known. -/
def laterOf : Option UInt32 → Option UInt32 → Option UInt32
  | some a, some b => some (max a b)
  | some a, none => some a
  | none, b => b

def add (read : OfferSnapshot) (result : Json) : OfferSnapshot :=
  ⟨read.offers ++ offersOf result, laterOf read.ledgerIndex (ledgerOf? result)⟩

def take (f : BookFetch) (a : Answer) : Progress BookFetch Result :=
  if a.success then
    match f.stage with
    | .base =>
      .ask 0 (.bookOffers f.market.quote f.market.base f.limit)
        { f with stage := .quote (add ⟨[], none⟩ a.result) }
    | .quote read => .done (.ok (add read a.result))
  else .done (.error (.refused ("book_offers for " ++ f.market.pair) a.errorCode?))

def resume (f : BookFetch) : Reply → Progress BookFetch Result
  | .ok a => f.take a
  | .error text => .done (.error (.unanswered text))

end BookFetch

end OfferDesk
