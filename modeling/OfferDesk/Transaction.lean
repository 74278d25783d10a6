-- Transactions that place and cancel offers, before and after they are signed.
import OfferDesk.Amount

namespace OfferDesk

inductive Action where
  | create (takerGets takerPays : WireAmount) (flags : UInt32)
  | cancel (offerSequence : UInt32)
deriving DecidableEq, Inhabited

namespace Action

/-- The flag of an offer that takes nothing that it would cross at its own price. -/
def passiveFlag : UInt32 := 0x00010000

/-- The flag of an offer that never rests. -/
def immediateFlag : UInt32 := 0x00040000

/-- The flag of an offer that sells all of what it gives. -/
def sellFlag : UInt32 := 0x00080000

end Action

/-- A transaction. Its sequence, fee and last ledger stay open until just before it is signed. -/
structure Transaction where
  account : String
  action : Action
  sequence : Option UInt32
  fee : Option String
  lastLedger : Option UInt32
  /-- The data of its memos, in hexadecimal. -/
  memos : List String
deriving DecidableEq, Inhabited

/-- A transaction with its signature: the blob to submit, and the hash to ask for. -/
structure SignedTransaction where
  transaction : Transaction
  blob : String
  hash : String
deriving DecidableEq, Inhabited

namespace Transaction

/-- A transaction with nothing filled in and one memo. -/
def draft (account : String) (action : Action) (memo : String) : Transaction where
  account := account
  action := action
  sequence := none
  fee := none
  lastLedger := none
  memos := [String.ofList (Text.hex (Text.bytes memo.toList))]

/-! ## Records -/

/-- Whether a transaction creates an offer. Its kind is given by name, or by its place among the
two kinds. -/
def createsOffer? : Json → Option Bool
  | .string "OfferCreate" | .number (.whole 0) => some true
  | .string "OfferCancel" | .number (.whole 1) => some false
  | _ => none

def actionOf? (fields : Json.Fields) : Option Action := do
  if ← fields.required "TransactionType" createsOffer? then
    let gets ← fields.required "TakerGets" WireAmount.ofJson?
    let pays ← fields.required "TakerPays" WireAmount.ofJson?
    return .create gets pays (← fields.defaulted "Flags" Json.word32? 0)
  else
    return .cancel (← fields.required "OfferSequence" Json.word32?)

def memoOf? (j : Json) : Option String := do
  let fields ← j.fieldsOf? ["Memo"]
  let memo ← (← fields.required "Memo" some).fieldsOf? ["MemoData"]
  memo.required "MemoData" Json.string?

def ofJson? (j : Json) : Option Transaction := do
  let fields ← j.objectFields?
  return {
    account := ← fields.required "Account" Json.string?
    action := ← actionOf? fields
    sequence := ← fields.optional "Sequence" Json.word32?
    fee := ← fields.optional "Fee" Json.string?
    lastLedger := ← fields.optional "LastLedgerSequence" Json.word32?
    memos := ← fields.defaulted "Memos" (Json.listOf? memoOf?) [] }

def actionFields : Action → Json.Fields
  | .create gets pays flags => [("TransactionType", .string "OfferCreate"),
      ("TakerGets", gets.toJson), ("TakerPays", pays.toJson), ("Flags", .ofWord32 flags)]
  | .cancel sequence => [("TransactionType", .string "OfferCancel"),
      ("OfferSequence", .ofWord32 sequence)]

def memoToJson (data : String) : Json :=
  .object [("Memo", .object [("MemoData", .string data)])]

def toJson (t : Transaction) : Json :=
  .object ([("Account", .string t.account)] ++ actionFields t.action ++
    Json.fieldIfSome "Sequence" .ofWord32 t.sequence ++
    Json.fieldIfSome "Fee" .string t.fee ++
    Json.fieldIfSome "LastLedgerSequence" .ofWord32 t.lastLedger ++
    (if t.memos.isEmpty then [] else [("Memos", .array (t.memos.map memoToJson))]))

end Transaction

def SignedTransaction.ofJson? (j : Json) : Option SignedTransaction := do
  let fields ← j.fieldsOf? ["transaction", "tx_blob", "hash"]
  return {
    transaction := ← fields.required "transaction" Transaction.ofJson?
    blob := ← fields.required "tx_blob" Json.string?
    hash := ← fields.required "hash" Json.string? }

end OfferDesk
