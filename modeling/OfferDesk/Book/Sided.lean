-- Offers of one market seen along its base and quote: the entry of a resting offer, the book of
-- many, and the updates that a transaction makes.
import OfferDesk.Book.Basic
import OfferDesk.Market
import OfferDesk.Outcome

namespace OfferDesk

/-! ## Sides -/

namespace Market

/-- The side on which an offer with these legs stands. -/
def sideOf? (m : Market) (gets pays : Currency) : Option BookSide :=
  if gets.agreesWith m.base && pays.agreesWith m.quote then some .ask
  else if gets.agreesWith m.quote && pays.agreesWith m.base then some .bid
  else none

end Market

namespace Legs

/-- The leg in the base currency of an offer on this side. -/
def baseOn (l : Legs) : BookSide → Amount
  | .ask => l.gets
  | .bid => l.pays

/-- The leg in the quote currency of an offer on this side. -/
def quoteOn (l : Legs) : BookSide → Amount
  | .ask => l.pays
  | .bid => l.gets

/-- What a taker pays for what it gets, in wire units. -/
def quality (l : Legs) : Except AmountError Decimal := do
  let pays ← wireUnits l.pays
  let gets ← wireUnits l.gets
  pays.ratio gets
where
  /-- A value in the units that the ledger compares: drops of the native currency. -/
  wireUnits (a : Amount) : Except AmountError Decimal :=
    if a.currency.isNative then a.value.product Decimal.dropsPerUnit else .ok a.value

/-- Quote for base on this side. -/
def priceOn (l : Legs) (side : BookSide) : Except AmountError Decimal :=
  (l.quoteOn side).value.ratio (l.baseOn side).value

end Legs

/-- The base and quote values of an offer's legs; nothing outside the market. -/
def Market.baseQuote? (m : Market) (l : Legs) : Option (Decimal × Decimal) :=
  (m.sideOf? l.gets.currency l.pays.currency).map fun side =>
    ((l.baseOn side).value, (l.quoteOn side).value)

/-! ## Resting offers -/

/-- An offer on its side of a market. `capped` says that its owner holds less than it offers. -/
structure SidedOffer where
  side : BookSide
  entry : BookEntry
  capped : Bool
deriving DecidableEq, Inhabited

/-- The base size that an owner's funds cover, for each offer that they cut short. -/
abbrev FundedSizes := Table OfferId Decimal

namespace Market

/-- What an owner holds of a currency. -/
def ownerFunds (funds : String) (currency : Currency) : Except AmountError Decimal :=
  if currency.isNative then Decimal.ofDropsText funds else Decimal.ofIssuedText funds

/-- Cuts the legs of an offer down to what its owner holds, and says whether that was less than
it offers. Without a figure nothing is cut. -/
def capLegs (legs : Legs) : Option String → Except AmountError (Legs × Bool)
  | none => .ok (legs, false)
  | some text => do
    let funds := (← ownerFunds text legs.gets.currency).floorAtZero
    if funds < legs.gets.value then
      let part ← funds.ratio legs.gets.value
      let pays ← legs.pays.value.product part
      return (⟨{ legs.gets with value := funds }, { legs.pays with value := pays }⟩, true)
    else return (legs, false)

/-- A resting offer on its side of the market. There is none for an offer of another market and
for one of which nothing can be taken. -/
def sided (m : Market) (offer : Offer) : Except AmountError (Option SidedOffer) := do
  let gets ← offer.takerGets.amount
  let pays ← offer.takerPays.amount
  match m.sideOf? gets.currency pays.currency with
  | none => return none
  | some side =>
    if !gets.value.isPositive || !pays.value.isPositive then return none
    let legs : Legs := ⟨gets, pays⟩
    let quality ← legs.quality
    let (legs, capped) ← capLegs legs offer.ownerFunds
    let amount := (legs.baseOn side).value
    if !amount.isPositive then return none
    return some ⟨side, ⟨offer.id, ← legs.priceOn side, amount, quality⟩, capped⟩

/-- The usable offers of a list: those of this market that can be read and of which something can
be taken. -/
def sidedOffers (m : Market) (offers : List Offer) : List SidedOffer :=
  offers.filterMap fun o =>
    match m.sided o with
    | .ok p => p
    | .error _ => none

def entriesOn (side : BookSide) (ps : List SidedOffer) : List BookEntry :=
  (ps.filter (·.side = side)).map (·.entry)

/-- The funded sizes of the capped offers. -/
def fundedSizes (ps : List SidedOffer) : FundedSizes :=
  .ofList ((ps.filter (·.capped)).map fun p => (p.entry.offer, p.entry.amount))

/-- The book of the usable offers, and the funded sizes of those that are cut short. -/
def snapshot (m : Market) (offers : List Offer) : OrderBook × FundedSizes :=
  let ps := m.sidedOffers offers
  (.ofEntries m.pair (entriesOn .bid ps) (entriesOn .ask ps), fundedSizes ps)

end Market

/-! ## Changes -/

/-- A node read as a change of an offer of a market: its handle and side, what is left of it,
and how it changed. -/
structure NodeReading where
  offer : OfferId
  side : BookSide
  remaining : Legs
  change : Option AffectedNode.Change
deriving DecidableEq, Inhabited

namespace Market

/-- Reads a node. There is no reading of one without a handle or without legs, or of an offer of
another market. -/
def readNode (m : Market) (n : AffectedNode) : Except Failure (Option NodeReading) := do
  match n.offerId? with
  | none => return none
  | some offer =>
    match ← n.remaining.mapError .malformedAmount with
    | none => return none
    | some remaining =>
      match m.sideOf? remaining.gets.currency remaining.pays.currency with
      | none => return none
      | some side => return some ⟨offer, side, remaining, ← n.change⟩

/-- What was taken of an offer, as a trade with its quality. -/
def takenTrade (r : NodeReading) (taken : Legs) :
    Except AmountError (Option (BookTrade × Decimal)) := do
  let base := (taken.baseOn r.side).value
  if base.isPositive then
    let price ← taken.priceOn r.side
    let quality ← if taken.gets.value.isPositive then taken.quality else pure .zero
    return some (⟨r.offer, r.side, price, base⟩, quality)
  else return none

/-- The price and quality of what is left. Where nothing is left they are those of the trade
that took it. -/
def levelPrice (r : NodeReading) (trade : Option (BookTrade × Decimal)) :
    Except AmountError (Decimal × Decimal) := do
  if (r.remaining.baseOn r.side).value.isPositive && r.remaining.gets.value.isPositive then
    return (← r.remaining.priceOn r.side, ← r.remaining.quality)
  else
    return (trade.map fun t => (t.1.price, t.2)).getD (.zero, .zero)

/-- The updates for a reading with what was taken: a trade, if anything was, and then the level
that is left. -/
def updatesOf (r : NodeReading) (taken : Option Legs) : Except AmountError (List BookUpdate) := do
  let trade ← match taken with
    | some legs => takenTrade r legs
    | none => pure none
  let (price, quality) ← levelPrice r trade
  let amount := (r.remaining.baseOn r.side).value.floorAtZero
  return (trade.map fun t => BookUpdate.trade t.1).toList ++
    [.level ⟨r.side, ⟨r.offer, price, amount, quality⟩⟩]

/-- The updates of a node; a node with an error makes none. Nothing at all comes of it where what
was taken leaves the range of decimals. -/
def nodeUpdates? (m : Market) (n : AffectedNode) : Option (List BookUpdate) :=
  match m.readNode n with
  | .error _ | .ok none => some []
  | .ok (some r) => do
    let taken ← match r.change with
      | some c => do pure (some (← c.taken?))
      | none => pure none
    match updatesOf r taken with
    | .ok updates => some updates
    | .error _ => some []

/-- The updates that the nodes of a transaction make, in the order of the nodes. -/
def diff? (m : Market) (nodes : List AffectedNode) : Option (List BookUpdate) :=
  ((nodes.filter (·.isOffer)).mapM m.nodeUpdates?).map List.flatten

end Market

end OfferDesk
