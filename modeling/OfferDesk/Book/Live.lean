-- Live books: a full snapshot from time to time, patched by each validated transaction in
-- between.
import OfferDesk.Book.Sided

namespace OfferDesk

/-- The offers of both sides of a market, and the validated ledger they were read from. -/
structure OfferSnapshot where
  offers : List Offer
  ledgerIndex : Option UInt32
deriving DecidableEq, Inhabited

/-- The book of a market as it stands. -/
structure LiveBook where
  market : Market
  book : OrderBook
  /-- What is left of the funds of offers that the snapshot cut short. -/
  funded : FundedSizes
  /-- Seconds after which a snapshot is too old. -/
  resetInterval : Nat
  /-- The second of the last snapshot. -/
  lastReset : Option Nat
  snapshotLedger : Option UInt32
deriving DecidableEq, Inhabited

namespace LiveBook

/-- The book of a market before its first snapshot. -/
def new (market : Market) (resetInterval : Nat) : LiveBook :=
  ⟨market, .empty market.pair, .empty, resetInterval, none, none⟩

/-- Whether a new snapshot is due. No time has passed since a snapshot that lies ahead. -/
def isStale (b : LiveBook) (now : Nat) : Bool :=
  match b.lastReset with
  | none => true
  | some last => decide (b.resetInterval ≤ now - last)

/-- Builds the book anew from a snapshot. -/
def reset (b : LiveBook) (snapshot : OfferSnapshot) (now : Nat) : LiveBook :=
  let (book, funded) := b.market.snapshot snapshot.offers
  { b with
    book := { book with ledgerIndex := snapshot.ledgerIndex }
    funded := funded
    lastReset := some now
    snapshotLedger := snapshot.ledgerIndex }

/-- Whether the snapshot holds a transaction of this ledger already. -/
def inSnapshot (b : LiveBook) (ledgerIndex : Option UInt32) : Bool :=
  match b.snapshotLedger, ledgerIndex with
  | some snapshot, some index => index ≤ snapshot
  | _, _ => false

/-- Holds an update of a capped offer to its funds. A trade spends them; a level shows no more
than is left of them, and an offer that shows nothing is forgotten. -/
def holdCap? (funded : FundedSizes) : BookUpdate → Option (FundedSizes × BookUpdate)
  | .trade t =>
    match funded.find? t.offer with
    | none => some (funded, .trade t)
    | some left => do
      let left ← left.sub? t.amount
      return (funded.put t.offer left.floorAtZero, .trade t)
  | .level l =>
    match funded.find? l.entry.offer with
    | none => some (funded, .level l)
    | some left =>
      let amount := if left < l.entry.amount then left else l.entry.amount
      let funded := if amount.isZero then funded.erase l.entry.offer else funded
      some (funded, .level { l with entry := { l.entry with amount := amount } })

/-- Holds updates to the funds of capped offers, one after another. -/
def holdCaps? (funded : FundedSizes) : List BookUpdate → Option (FundedSizes × List BookUpdate)
  | [] => some (funded, [])
  | u :: us => do
    let (funded, u) ← holdCap? funded u
    let (funded, us) ← holdCaps? funded us
    return (funded, u :: us)

/-- Patches the book with a transaction and gives the updates. Only a validated success that the
snapshot does not hold changes anything. There is no result where an amount leaves the range of
decimals. -/
def applyOutcome? (b : LiveBook) (o : Outcome) : Option (LiveBook × List BookUpdate) :=
  if !o.validated || !o.isSuccess || b.inSnapshot o.ledgerIndex then some (b, [])
  else do
    let updates ← b.market.diff? o.nodes
    let (funded, updates) ← holdCaps? b.funded updates
    if updates.isEmpty then return ({ b with funded := funded }, [])
    let book := b.book.apply updates
    return ({ b with
      book := { book with ledgerIndex := o.ledgerIndex <|> b.book.ledgerIndex }
      funded := funded }, updates)

end LiveBook

end OfferDesk
