-- Looking at the book of a pair. It is built anew where there is none yet or the one there is has
-- become too old.
import OfferDesk.Book.Fetch
import OfferDesk.Desk.Basic

namespace OfferDesk

/-- A look at a book that waits for the offers of its market. -/
structure BookView where
  market : Market
  fetch : BookFetch
deriving DecidableEq, Inhabited

namespace BookView

abbrev Result := Except LedgerTrouble OrderBook

/-- Puts a snapshot into the live book of a market. -/
def commit (d : Desk) (s : DeskState) (market : Market) (snapshot : OfferSnapshot) :
    DeskState × LiveBook :=
  let live := (s.books.find? market.pair).getD (.new market d.config.resetInterval.toNat)
  let live := live.reset snapshot s.now
  ({ s with books := s.books.put market.pair live }, live)

/-- Ends a look with what was fetched. -/
def conclude (d : Desk) (market : Market) (s : DeskState) : BookFetch.Result → Turn BookView Result
  | .ok snapshot =>
    let (s, live) := commit d s market snapshot
    (s, .done (.ok live.book))
  | .error e => (s, .done (.error e))

/-- Carries a look on with the progress of its fetch. -/
def advance (d : Desk) (s : DeskState) (market : Market)
    (p : Progress BookFetch BookFetch.Result) : Turn BookView Result :=
  Turn.andThen (s, p) (⟨market, ·⟩) (conclude d market)

def start (d : Desk) (s : DeskState) (market : Market) : Turn BookView Result :=
  match s.books.find? market.pair with
  | some live =>
    if live.isStale s.now then advance d s market (BookFetch.start market d.config.offersLimit)
    else (s, .done (.ok live.book))
  | none => advance d s market (BookFetch.start market d.config.offersLimit)

def resume (d : Desk) (s : DeskState) (v : BookView) (reply : Reply) : Turn BookView Result :=
  advance d s v.market (v.fetch.resume reply)

end BookView

end OfferDesk
