-- Balances of an account: what it owns in all, and what of it can be spent. Of the native currency
-- a reserve has to stay behind, which grows with the objects that the account keeps on the ledger.
import OfferDesk.Ledger.Inquiry
import OfferDesk.Outcome
import OfferDesk.Table

namespace OfferDesk

/-! ## The reserve -/

/-- What has to stay on an account: a base, and more for each object that it owns. -/
structure Reserve where
  base : Decimal
  perObject : Decimal
deriving DecidableEq, Inhabited

namespace Reserve

/-- The schedule where none is configured. -/
def standard : Reserve := ⟨.ofWord 10, .ofWord 2⟩

/-- What has to stay for so many objects; nothing where it leaves the range of decimals. -/
def required? (r : Reserve) (ownerCount : UInt32) : Option Decimal := do
  r.base.add? (← r.perObject.mul? (.ofWord ownerCount.toUInt64))

def ofJson? (j : Json) : Option Reserve := do
  let fields ← j.fieldsOf? ["base", "owner_increment"]
  return ⟨← fields.required "base" Json.decimal?, ← fields.required "owner_increment" Json.decimal?⟩

def toJson (r : Reserve) : Json :=
  .object [("base", .ofDecimal r.base), ("owner_increment", .ofDecimal r.perObject)]

end Reserve

/-! ## Balances -/

/-- What is owned of a currency, and how much of it can be spent. -/
structure Holding where
  total : Decimal
  available : Decimal
deriving DecidableEq, Inhabited

namespace Holding

def nothing : Holding := ⟨.zero, .zero⟩

/-- Adds a value that can be spent in full; nothing where a sum leaves the range of decimals. -/
def add? (h : Holding) (value : Decimal) : Option Holding := do
  return ⟨← h.total.add? value, ← h.available.add? value⟩

end Holding

/-- The holdings of an account under the symbols of their currencies. -/
abbrev Balances := Table String Holding

namespace Balances

/-- The holding under a symbol; an unknown one has nothing. -/
def holding (b : Balances) (symbol : String) : Holding := (b.find? symbol).getD .nothing

def add? (b : Balances) (symbol : String) (value : Decimal) : Option Balances := do
  return b.put symbol (← (b.holding symbol).add? value)

/-! ## Trust lines -/

/-- The code and value that a trust line holds for an account. A line keeps its balance as the
account of its low limit sees it, so the other account sees it with the opposite sign. There is
none for any other object and for a line that cannot be read. -/
def lineBalance? (account : String) (object : Json) : Option (String × Decimal) := do
  let kind ← (object.field? "LedgerEntryType").bind Json.string?
  if kind = EntryType.trustLine.text then
    let line ← ObjectFields.ofJson? object
    match line.balance with
    | some (.issued balance) =>
      let value ← (Decimal.ofIssuedText balance.value).toOption
      let isLow := line.lowLimit.map (·.issuer) = some account
      return (balance.currency, if isLow then value else value.neg)
    | _ => none
  else none

/-- The trust lines among the objects of an account. -/
def linesOf (account : String) (objects : Json) : List (String × Decimal) :=
  (((objects.field? "account_objects").bind Json.array?).getD []).filterMap (lineBalance? account)

/-! ## Reading an account -/

/-- The data of an account and its native balance. -/
def nativeOf (info : Json) : Except Failure (Json × Decimal) :=
  match info.field? "account_data" with
  | none => .error (.unexpected .noAccountData)
  | some data =>
    match (data.field? "Balance").bind Json.string? with
    | none => .error (.unexpected .noBalance)
    | some drops =>
      match Decimal.ofDropsText drops with
      | .ok value => .ok (data, value)
      | .error e => .error (.malformedAmount e)

/-- How many objects an account owns. A count beyond 32 bits is taken for the largest one: it can
only raise the reserve. -/
def ownerCountOf (data : Json) : UInt32 :=
  match (data.field? "OwnerCount").bind Json.word64? with
  | none => 0
  | some n => (min n.toNat (UInt32.size - 1)).toUInt32

/-- The native holding: what is above the reserve can be spent. -/
def nativeHolding? (native : Decimal) (ownerCount : UInt32) (reserve : Reserve) :
    Option Holding := do
  let spare ← native.sub? (← reserve.required? ownerCount)
  return ⟨native, spare.floorAtZero⟩

/-- The balances of an account from what the ledger tells about it and its objects. There is no
result where a sum leaves the range of decimals. -/
def derive? (account : String) (info objects : Json) (reserve : Reserve) :
    Option (Except Failure Balances) :=
  match nativeOf info with
  | .error e => some (.error e)
  | .ok (data, native) => do
    let own ← nativeHolding? native (ownerCountOf data) reserve
    let start : Balances := Table.empty.put Currency.nativeSymbol own
    let all ← (linesOf account objects).foldlM
      (fun b line => b.add? (Currency.symbolOf line.1) line.2) start
    return .ok all

def sorted (b : Balances) : List (String × Holding) := b.entries.mergeSort (·.1 ≤ ·.1)

def toJson (b : Balances) : Json :=
  .object [("total", .ofEntries (fun h => .ofDecimal h.total) b.sorted),
    ("available", .ofEntries (fun h => .ofDecimal h.available) b.sorted)]

end Balances

/-! ## Asking for them -/

/-- What a reading of balances waits for: the account, or its objects after it. -/
inductive BalanceReading.Stage where
  | account
  | objects (info : Json)
deriving Inhabited

structure BalanceReading where
  account : String
  reserve : Reserve
  stage : BalanceReading.Stage
deriving Inhabited

namespace BalanceReading

abbrev Result := Except Trouble Balances

def start (account : String) (reserve : Reserve) : Progress BalanceReading Result :=
  .ask 0 (.accountInfo account) ⟨account, reserve, .account⟩

def Stage.request (account : String) : Stage → Request
  | .account => .accountInfo account
  | .objects _ => .accountObjects account

def take (r : BalanceReading) (a : Answer) : Progress BalanceReading Result :=
  if !a.success then
    .done (.error (.ledger (.refused (r.stage.request r.account).method a.errorCode?)))
  else
    match r.stage with
    | .account => .ask 0 (.accountObjects r.account) { r with stage := .objects a.result }
    | .objects info =>
      match Balances.derive? r.account info a.result r.reserve with
      | some result => .done (result.mapError .failure)
      | none => .halted

def resume (r : BalanceReading) : Reply → Progress BalanceReading Result
  | .ok a => r.take a
  | .error text => .done (.error (.ledger (.unanswered text)))

end BalanceReading

end OfferDesk
