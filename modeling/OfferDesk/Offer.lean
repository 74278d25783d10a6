-- Offers that rest on the ledger. An offer keeps its account and sequence as long as it lives,
-- so the two together are its handle.
import OfferDesk.Amount

namespace OfferDesk

structure OfferId where
  account : String
  sequence : UInt32
deriving DecidableEq, Inhabited

namespace OfferId

def text (id : OfferId) : String := id.account ++ ":" ++ toString id.sequence.toNat

def compare (a b : OfferId) : Ordering :=
  (Ord.compare a.account b.account).then (Ord.compare a.sequence.toNat b.sequence.toNat)

def ofJson? (j : Json) : Option OfferId := do
  let fields ← j.fieldsOf? ["account", "sequence"]
  return ⟨← fields.required "account" Json.string?, ← fields.required "sequence" Json.word32?⟩

def toJson (id : OfferId) : Json :=
  .object [("account", .string id.account), ("sequence", .ofWord32 id.sequence)]

end OfferId

/-- An offer as the ledger lists it. Its side is not kept: that follows from the leg in which a
market's base currency stands. -/
structure Offer where
  account : String
  sequence : UInt32
  takerGets : WireAmount
  takerPays : WireAmount
  directory : String
  flags : UInt32
  expiration : Option UInt64
  /-- What the owner holds of the currency on offer, in wire units. -/
  ownerFunds : Option String
  quality : Option String
deriving DecidableEq, Inhabited

namespace Offer

/-- The flag of an offer that was placed to sell. -/
def sellFlag : UInt32 := 0x00020000

def id (o : Offer) : OfferId := ⟨o.account, o.sequence⟩

def isSell (o : Offer) : Bool := o.flags &&& sellFlag != 0

def ofJson? (j : Json) : Option Offer := do
  let fields ← j.fieldsOf? ["Account", "Sequence", "TakerGets", "TakerPays", "BookDirectory",
    "Flags", "Expiration", "owner_funds", "quality"]
  return {
    account := ← fields.required "Account" Json.string?
    sequence := ← fields.required "Sequence" Json.word32?
    takerGets := ← fields.required "TakerGets" WireAmount.ofJson?
    takerPays := ← fields.required "TakerPays" WireAmount.ofJson?
    directory := ← fields.defaulted "BookDirectory" Json.string? ""
    flags := ← fields.defaulted "Flags" Json.word32? 0
    expiration := ← fields.optional "Expiration" Json.word64?
    ownerFunds := ← fields.optional "owner_funds" Json.string?
    quality := ← fields.optional "quality" Json.string? }

def toJson (o : Offer) : Json :=
  .object ([("Account", .string o.account), ("Sequence", .ofWord32 o.sequence),
    ("TakerGets", o.takerGets.toJson), ("TakerPays", o.takerPays.toJson),
    ("BookDirectory", .string o.directory), ("Flags", .ofWord32 o.flags)] ++
    Json.fieldIfSome "Expiration" .ofWord64 o.expiration ++
    Json.fieldIfSome "owner_funds" .string o.ownerFunds ++
    Json.fieldIfSome "quality" .string o.quality)

end Offer

end OfferDesk
