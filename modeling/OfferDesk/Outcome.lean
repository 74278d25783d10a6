-- Outcomes: transactions with the ledger's verdict on them, and the ledger objects they changed.
import OfferDesk.Failure
import OfferDesk.Offer

namespace OfferDesk

/-! ## Changed objects -/

inductive NodeKind where
  | created
  | modified
  | deleted
deriving DecidableEq, Inhabited

inductive EntryType where
  | offer
  | accountRoot
  | trustLine
  | other
deriving DecidableEq, Inhabited

/-- The fields that matter of a ledger object. -/
structure ObjectFields where
  account : Option String := none
  sequence : Option UInt32 := none
  takerGets : Option WireAmount := none
  takerPays : Option WireAmount := none
  balance : Option WireAmount := none
  highLimit : Option IssuedAmount := none
  lowLimit : Option IssuedAmount := none
  ownerCount : Option UInt32 := none
  flags : Option UInt32 := none
deriving DecidableEq, Inhabited

/-- A ledger object before and after a transaction. For a created one `after` holds the fields
that it was created with. -/
structure AffectedNode where
  kind : NodeKind
  entryType : EntryType
  ledgerIndex : String
  before : ObjectFields
  after : ObjectFields
deriving DecidableEq, Inhabited

/-- The two legs of an offer in units of their currencies. -/
structure Legs where
  gets : Amount
  pays : Amount
deriving DecidableEq, Inhabited

namespace AffectedNode

def isOffer (n : AffectedNode) : Bool := n.entryType = .offer

def account? (n : AffectedNode) : Option String := n.after.account <|> n.before.account

def sequence? (n : AffectedNode) : Option UInt32 := n.after.sequence <|> n.before.sequence

/-- The handle of the offer that a node is about. -/
def offerId? (n : AffectedNode) : Option OfferId := do return ⟨← n.account?, ← n.sequence?⟩

/-- A leg after the transaction: zero where it is not given, and an error where it is not in the
currency that it was in. -/
def legAfter (before : Amount) : Option WireAmount → Except Failure Decimal
  | none => .ok .zero
  | some wire => do
    let after ← wire.amount.mapError .malformedAmount
    if after.currency.agreesWith before.currency then return after.value
    else throw (.unexpected (.legChanged before.currency after.currency))

/-- The legs before a transaction with the values they have after it. -/
structure Change where
  before : Legs
  getsAfter : Decimal
  paysAfter : Decimal
deriving DecidableEq, Inhabited

/-- How a transaction changed the size of an offer. There is no change for a created offer, and
none where the gets leg has no former value: an offer that is cancelled, expired or unfunded
goes untouched. -/
def change (n : AffectedNode) : Except Failure (Option Change) := do
  if n.kind = .created then return none
  match n.before.takerGets with
  | none => return none
  | some getsWire =>
    let gets ← getsWire.amount.mapError .malformedAmount
    match n.before.takerPays <|> n.after.takerPays with
    | none => return none
    | some paysWire =>
      let pays ← paysWire.amount.mapError .malformedAmount
      let getsAfter ← legAfter gets n.after.takerGets
      let paysAfter ← legAfter pays n.after.takerPays
      return some ⟨⟨gets, pays⟩, getsAfter, paysAfter⟩

/-- What was taken of both legs; nothing where a difference leaves the range of decimals. -/
def Change.taken? (c : Change) : Option Legs := do
  let gets ← c.before.gets.value.sub? c.getsAfter
  let pays ← c.before.pays.value.sub? c.paysAfter
  return ⟨⟨c.before.gets.currency, gets⟩, ⟨c.before.pays.currency, pays⟩⟩

/-- The legs after the transaction; of a deleted offer nothing is left. -/
def remaining (n : AffectedNode) : Except AmountError (Option Legs) := do
  match n.after.takerGets, n.after.takerPays with
  | some gets, some pays =>
    let gets ← gets.amount
    let pays ← pays.amount
    if n.kind = .deleted then return some ⟨⟨gets.currency, .zero⟩, ⟨pays.currency, .zero⟩⟩
    else return some ⟨gets, pays⟩
  | _, _ => return none

end AffectedNode

/-! ## Transactions with their verdict -/

/-- The fields of a transaction by which it is recognised. -/
structure TransactionFields where
  account : String
  kind : String
  sequence : UInt32
  lastLedger : Option UInt32
  fee : Option String
  flags : UInt32
  takerGets : Option WireAmount
  takerPays : Option WireAmount
  offerSequence : Option UInt32
deriving DecidableEq, Inhabited

/-- A transaction with the ledger's verdict. -/
structure Outcome where
  hash : String
  transaction : TransactionFields
  engineResult : String
  nodes : List AffectedNode
  ledgerIndex : Option UInt32
  validated : Bool
  /-- When its ledger closed, in seconds since 2000. -/
  date : Option UInt64
deriving DecidableEq, Inhabited

namespace Outcome

/-- The engine result of a success. -/
def successCode : String := "tesSUCCESS"

def isSuccess (o : Outcome) : Bool := o.engineResult = successCode

def offerNodes (o : Outcome) : List AffectedNode := o.nodes.filter (·.isOffer)

end Outcome

/-! ## Records -/

namespace ObjectFields

def names : List String := ["Account", "Sequence", "TakerGets", "TakerPays", "Balance",
  "HighLimit", "LowLimit", "OwnerCount", "Flags"]

def ofJson? (j : Json) : Option ObjectFields := do
  let fields ← j.fieldsOf? names
  return {
    account := ← fields.optional "Account" Json.string?
    sequence := ← fields.optional "Sequence" Json.word32?
    takerGets := ← fields.optional "TakerGets" WireAmount.ofJson?
    takerPays := ← fields.optional "TakerPays" WireAmount.ofJson?
    balance := ← fields.optional "Balance" WireAmount.ofJson?
    highLimit := ← fields.optional "HighLimit" IssuedAmount.ofJson?
    lowLimit := ← fields.optional "LowLimit" IssuedAmount.ofJson?
    ownerCount := ← fields.optional "OwnerCount" Json.word32?
    flags := ← fields.optional "Flags" Json.word32? }

def toJson (f : ObjectFields) : Json :=
  .object (Json.fieldIfSome "Account" .string f.account ++
    Json.fieldIfSome "Sequence" .ofWord32 f.sequence ++
    Json.fieldIfSome "TakerGets" (·.toJson) f.takerGets ++
    Json.fieldIfSome "TakerPays" (·.toJson) f.takerPays ++
    Json.fieldIfSome "Balance" (·.toJson) f.balance ++
    Json.fieldIfSome "HighLimit" (·.toJson) f.highLimit ++
    Json.fieldIfSome "LowLimit" (·.toJson) f.lowLimit ++
    Json.fieldIfSome "OwnerCount" .ofWord32 f.ownerCount ++
    Json.fieldIfSome "Flags" .ofWord32 f.flags)

end ObjectFields

namespace EntryType

def text : EntryType → String
  | offer => "Offer"
  | accountRoot => "AccountRoot"
  | trustLine => "RippleState"
  | other => "Other"

/-- Any name that is not known counts as another type. -/
def ofText (s : String) : EntryType :=
  ([offer, accountRoot, trustLine].find? (·.text == s)).getD other

end EntryType

namespace NodeKind

def text : NodeKind → String
  | created => "Created"
  | modified => "Modified"
  | deleted => "Deleted"

def ofTag? (s : String) : Option NodeKind :=
  [created, modified, deleted].find? fun k => k.text ++ "Node" == s

end NodeKind

namespace AffectedNode

/-- A node is an object with its kind as its only field. -/
def ofJson? : Json → Option AffectedNode
  | .object [(tag, body)] => do
    let kind ← NodeKind.ofTag? tag
    let fields ← body.fieldsOf? ["LedgerEntryType", "LedgerIndex", "PreviousFields",
      "FinalFields", "NewFields"]
    let entryType ← fields.required "LedgerEntryType" Json.caseName?
    let ledgerIndex ← fields.defaulted "LedgerIndex" Json.string? ""
    let before ← fields.optional "PreviousFields" ObjectFields.ofJson?
    let final ← fields.optional "FinalFields" ObjectFields.ofJson?
    let new ← fields.optional "NewFields" ObjectFields.ofJson?
    return ⟨kind, .ofText entryType, ledgerIndex, before.getD {}, (final <|> new).getD {}⟩
  | _ => none

def toJson (n : AffectedNode) : Json :=
  .object [("kind", .string n.kind.text), ("ledger_entry_type", .string n.entryType.text),
    ("ledger_index", .string n.ledgerIndex), ("previous_fields", n.before.toJson),
    ("final_fields", n.after.toJson)]

end AffectedNode

namespace TransactionFields

def names : List String := ["Account", "TransactionType", "Sequence", "LastLedgerSequence", "Fee",
  "Flags", "TakerGets", "TakerPays", "OfferSequence"]

def ofFields? (fields : Json.Fields) : Option TransactionFields := do
  return {
    account := ← fields.required "Account" Json.string?
    kind := ← fields.required "TransactionType" Json.string?
    sequence := ← fields.defaulted "Sequence" Json.word32? 0
    lastLedger := ← fields.optional "LastLedgerSequence" Json.word32?
    fee := ← fields.optional "Fee" Json.string?
    flags := ← fields.defaulted "Flags" Json.word32? 0
    takerGets := ← fields.optional "TakerGets" WireAmount.ofJson?
    takerPays := ← fields.optional "TakerPays" WireAmount.ofJson?
    offerSequence := ← fields.optional "OfferSequence" Json.word32? }

def ofJson? (j : Json) : Option TransactionFields := do ofFields? (← j.fieldsOf? names)

def toJson (t : TransactionFields) : Json :=
  .object ([("Account", .string t.account), ("TransactionType", .string t.kind),
    ("Sequence", .ofWord32 t.sequence)] ++
    Json.fieldIfSome "LastLedgerSequence" .ofWord32 t.lastLedger ++
    Json.fieldIfSome "Fee" .string t.fee ++
    [("Flags", .ofWord32 t.flags)] ++
    Json.fieldIfSome "TakerGets" (·.toJson) t.takerGets ++
    Json.fieldIfSome "TakerPays" (·.toJson) t.takerPays ++
    Json.fieldIfSome "OfferSequence" .ofWord32 t.offerSequence)

end TransactionFields

namespace Outcome

/-- The engine result and the nodes of a transaction's metadata. -/
def metaOf? (j : Json) : Option (String × List AffectedNode) := do
  let fields ← j.fieldsOf? ["AffectedNodes", "TransactionResult"]
  let nodes ← fields.defaulted "AffectedNodes" (Json.listOf? AffectedNode.ofJson?) []
  let result ← fields.defaulted "TransactionResult" Json.string? ""
  return (result, nodes)

def ofStream? (event : Json) : Option Outcome := do
  let fields ← event.fieldsOf? ["transaction", "meta", "hash", "ledger_index", "date", "validated"]
  let transaction ← fields.required "transaction" TransactionFields.ofJson?
  let (result, nodes) ← fields.required "meta" metaOf?
  return {
    hash := ← fields.required "hash" Json.string?
    transaction := transaction
    engineResult := result
    nodes := nodes
    ledgerIndex := ← fields.optional "ledger_index" Json.word32?
    validated := ← fields.defaulted "validated" Json.bool? true
    date := ← fields.optional "date" Json.word64? }

def ofLookup? (result : Json) : Option Outcome := do
  let fields ← result.objectFields?
  let transaction ← TransactionFields.ofFields? fields
  let (engineResult, nodes) := (← fields.optional "meta" metaOf?).getD ("", [])
  return {
    hash := ← fields.required "hash" Json.string?
    transaction := transaction
    engineResult := engineResult
    nodes := nodes
    ledgerIndex := ← fields.optional "ledger_index" Json.word32?
    validated := ← fields.defaulted "validated" Json.bool? false
    date := ← fields.optional "date" Json.word64? }

/-- The outcome in a message of a transaction stream. The stream only carries transactions of
closed ledgers, so one that does not say otherwise is validated. -/
def ofStream (event : Json) : Except Failure Outcome :=
  match ofStream? event with
  | some o => .ok o
  | none => .error (.unexpected .transactionEvent)

/-- The outcome in the result of a lookup. A transaction that is not validated yet comes without
metadata. -/
def ofLookup (result : Json) : Except Failure Outcome :=
  match ofLookup? result with
  | some o => .ok o
  | none => .error (.unexpected .lookupResult)

def toJson (o : Outcome) : Json :=
  .object [("hash", .string o.hash), ("transaction", o.transaction.toJson),
    ("engine_result", .string o.engineResult), ("affected_nodes", .array (o.nodes.map (·.toJson))),
    ("ledger_index", .ofOption .ofWord32 o.ledgerIndex), ("validated", .bool o.validated),
    ("date", .ofOption .ofWord64 o.date)]

end Outcome

end OfferDesk
