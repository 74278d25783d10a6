-- Order books: the offers on both sides of a market, best price first, and the updates that
-- change them.
import OfferDesk.Offer

namespace OfferDesk

/-- Bids want the base currency of a market, asks offer it. -/
inductive BookSide where
  | bid
  | ask
deriving DecidableEq, Inhabited

namespace BookSide

def text : BookSide → String
  | bid => "bid"
  | ask => "ask"

def ofText? (s : String) : Option BookSide := [bid, ask].find? (·.text == s)

def ofJson? (j : Json) : Option BookSide := j.caseName?.bind ofText?

end BookSide

structure BookEntry where
  offer : OfferId
  /-- Quote units for a base unit. -/
  price : Decimal
  /-- Base units that can be taken. -/
  amount : Decimal
  /-- What a taker pays for what it gets, in wire units, as the ledger orders offers. -/
  quality : Decimal
deriving DecidableEq, Inhabited

namespace BookEntry

/-- Cheaper asks come first, and offers of one price by their handle. -/
def compareAsks (a b : BookEntry) : Ordering :=
  (a.price.compare b.price).then (a.offer.compare b.offer)

/-- Dearer bids come first, and offers of one price by their handle. -/
def compareBids (a b : BookEntry) : Ordering :=
  (b.price.compare a.price).then (a.offer.compare b.offer)

/-- The order on a side. -/
def compareOn : BookSide → BookEntry → BookEntry → Ordering
  | .bid => compareBids
  | .ask => compareAsks

/-- Puts an entry before the first one that does not come before it. This stands for a binary search
for the place of the entry. On a side that is in order the search ends at this place (`insertOn_eq`);
on any other side its place is not specified. -/
def insertOn (side : BookSide) (entry : BookEntry) : List BookEntry → List BookEntry
  | [] => [entry]
  | e :: es =>
    if compareOn side e entry = .lt then e :: insertOn side entry es else entry :: e :: es

/-- The entries in the order of a side. -/
def sortOn (side : BookSide) (entries : List BookEntry) : List BookEntry :=
  entries.mergeSort fun a b => compareOn side a b ≠ .gt

end BookEntry

/-- The two sides of a market. -/
structure OrderBook where
  pair : String
  bids : List BookEntry
  asks : List BookEntry
  /-- The ledger of the last snapshot or change. -/
  ledgerIndex : Option UInt32
deriving DecidableEq, Inhabited

/-- Something taken from a resting offer. -/
structure BookTrade where
  offer : OfferId
  /-- The side of the offer; the taker traded the other way. -/
  makerSide : BookSide
  price : Decimal
  amount : Decimal
deriving DecidableEq, Inhabited

/-- What is left of an offer; an amount of zero takes it out. -/
structure LevelUpdate where
  side : BookSide
  entry : BookEntry
deriving DecidableEq, Inhabited

inductive BookUpdate where
  | trade (t : BookTrade)
  | level (l : LevelUpdate)
deriving DecidableEq, Inhabited

namespace OrderBook

def empty (pair : String) : OrderBook := ⟨pair, [], [], none⟩

/-- The book of these entries, in any order. -/
def ofEntries (pair : String) (bids asks : List BookEntry) : OrderBook :=
  ⟨pair, BookEntry.sortOn .bid bids, BookEntry.sortOn .ask asks, none⟩

def bestBid (b : OrderBook) : Option BookEntry := b.bids.head?

def bestAsk (b : OrderBook) : Option BookEntry := b.asks.head?

/-- The middle between the two best prices, if both sides have one. -/
def midPrice (b : OrderBook) : Option Decimal := do
  let sum ← (← b.bestBid).price.add? (← b.bestAsk).price
  sum.div? .two

/-- The entry of an offer with its side, looked for among the bids first. -/
def entry? (b : OrderBook) (offer : OfferId) : Option (BookSide × BookEntry) :=
  match b.bids.find? (·.offer = offer) with
  | some e => some (.bid, e)
  | none => (b.asks.find? (·.offer = offer)).map (.ask, ·)

/-- The entries of a side. -/
def entries (b : OrderBook) : BookSide → List BookEntry
  | .bid => b.bids
  | .ask => b.asks

/-- The book with other entries on a side. -/
def withEntries (b : OrderBook) (side : BookSide) (entries : List BookEntry) : OrderBook :=
  match side with
  | .bid => { b with bids := entries }
  | .ask => { b with asks := entries }

/-- Puts what is left of an offer in the place of its old entry. -/
def applyLevel (b : OrderBook) (l : LevelUpdate) : OrderBook :=
  let others := (b.entries l.side).filter (·.offer ≠ l.entry.offer)
  b.withEntries l.side
    (if l.entry.amount.isPositive then BookEntry.insertOn l.side l.entry others else others)

/-- Applies an update. A trade alone changes nothing: a level update follows it. -/
def applyUpdate (b : OrderBook) : BookUpdate → OrderBook
  | .trade _ => b
  | .level l => b.applyLevel l

def apply (b : OrderBook) (updates : List BookUpdate) : OrderBook := updates.foldl applyUpdate b

end OrderBook

/-! ## Records -/

namespace BookEntry

def ofJson? (j : Json) : Option BookEntry := do
  let fields ← j.fieldsOf? ["offer", "price", "amount", "quality"]
  return {
    offer := ← fields.required "offer" OfferId.ofJson?
    price := ← fields.required "price" Json.decimal?
    amount := ← fields.required "amount" Json.decimal?
    quality := ← fields.required "quality" Json.decimal? }

def toJson (e : BookEntry) : Json :=
  .object [("offer", e.offer.toJson), ("price", .ofDecimal e.price),
    ("amount", .ofDecimal e.amount), ("quality", .ofDecimal e.quality)]

end BookEntry

namespace BookUpdate

def tradeOfJson? (j : Json) : Option BookTrade := do
  let fields ← j.fieldsOf? ["offer", "maker_side", "price", "amount"]
  return {
    offer := ← fields.required "offer" OfferId.ofJson?
    makerSide := ← fields.required "maker_side" BookSide.ofJson?
    price := ← fields.required "price" Json.decimal?
    amount := ← fields.required "amount" Json.decimal? }

def levelOfJson? (j : Json) : Option LevelUpdate := do
  let fields ← j.fieldsOf? ["side", "entry"]
  return ⟨← fields.required "side" BookSide.ofJson?, ← fields.required "entry" BookEntry.ofJson?⟩

def ofJson? : Json → Option BookUpdate
  | .object [("Trade", j)] => (tradeOfJson? j).map .trade
  | .object [("Level", j)] => (levelOfJson? j).map .level
  | _ => none

def toJson : BookUpdate → Json
  | trade t => .object [("Trade", .object [("offer", t.offer.toJson),
      ("maker_side", .string t.makerSide.text), ("price", .ofDecimal t.price),
      ("amount", .ofDecimal t.amount)])]
  | level l => .object [("Level", .object [("side", .string l.side.text),
      ("entry", l.entry.toJson)])]

end BookUpdate

namespace OrderBook

def fields (b : OrderBook) : Json.Fields :=
  [("trading_pair", .string b.pair), ("bids", .array (b.bids.map (·.toJson))),
    ("asks", .array (b.asks.map (·.toJson))), ("ledger_index", .ofOption .ofWord32 b.ledgerIndex)]

def toJson (b : OrderBook) : Json := .object b.fields

/-- The book with its best offers and its middle price. -/
def toSummary (b : OrderBook) : Json :=
  .object (b.fields ++ [
    ("best_bid", .ofOption (fun e => .string e.offer.text) b.bestBid),
    ("best_ask", .ofOption (fun e => .string e.offer.text) b.bestAsk),
    ("mid_price", .ofOption .ofDecimal b.midPrice)])

end OrderBook

end OfferDesk
