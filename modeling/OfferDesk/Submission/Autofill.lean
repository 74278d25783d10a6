-- Autofill: the sequence, fee and last ledger of a transaction, asked of the ledger just before it
-- is signed.
import OfferDesk.Failure
import OfferDesk.Ledger.Inquiry
import OfferDesk.Transaction

namespace OfferDesk

/-- What an autofill waits for, with what it has learnt. -/
inductive Autofill.Stage where
  | account
  | fee (sequence : Nat)
  | ledger (sequence : Nat) (fee : String)
deriving DecidableEq, Inhabited

structure Autofill where
  transaction : Transaction
  /-- For how many ledgers after the current one the transaction may be taken in. -/
  offset : UInt32
  stage : Autofill.Stage
deriving DecidableEq, Inhabited

namespace Autofill

abbrev Result := Except LedgerTrouble Transaction

/-- Asks for the account first. -/
def start (transaction : Transaction) (offset : UInt32) : Progress Autofill Result :=
  .ask 0 (.accountInfo transaction.account) ⟨transaction, offset, .account⟩

/-- A number that fits 32 bits. -/
def word (n : Nat) : Except LedgerTrouble UInt32 :=
  if n < UInt32.size then .ok n.toUInt32 else .error .beyondWord

/-- The last ledger that may take the transaction in, counted from the current one. -/
def lastLedger (current : Nat) (offset : UInt32) : Except LedgerTrouble UInt32 := do
  let index ← word current
  if index.toNat + offset.toNat < UInt32.size then return index + offset
  else throw (.noLedgerAfter current)

/-- The number at a path of an answer, or what the answer lacks. -/
def number (answer : String) (a : Answer) (path : List String) (field : String) :
    Except LedgerTrouble Nat :=
  match (a.result.path? path).bind Json.word64? with
  | some n => .ok n.toNat
  | none => .error (.lacks answer field)

/-- The sequence that the account's next transaction has. -/
def accountSequence (account : String) (a : Answer) : Except LedgerTrouble Nat :=
  if a.success then number "account_info" a ["account_data", "Sequence"] "Sequence"
  else .error (.refused ("account_info for " ++ account) a.errorCode?)

/-- The fee that gets into the open ledger. -/
def openFee (a : Answer) : Except LedgerTrouble String :=
  match (a.result.path? ["drops", "open_ledger_fee"]).bind Json.string? with
  | some fee => .ok fee
  | none => .error (.lacks "fee response" "open_ledger_fee")

/-- The transaction with everything filled in. -/
def complete (f : Autofill) (sequence : Nat) (fee : String) (a : Answer) : Result := do
  let current ← number "ledger_current response" a ["ledger_current_index"] "ledger_current_index"
  let sequence ← word sequence
  let last ← lastLedger current f.offset
  return { f.transaction with sequence := some sequence, fee := some fee, lastLedger := some last }

def take (f : Autofill) (a : Answer) : Progress Autofill Result :=
  match f.stage with
  | .account =>
    match accountSequence f.transaction.account a with
    | .ok sequence => .ask 0 .fee { f with stage := .fee sequence }
    | .error e => .done (.error e)
  | .fee sequence =>
    match openFee a with
    | .ok fee => .ask 0 .currentLedger { f with stage := .ledger sequence fee }
    | .error e => .done (.error e)
  | .ledger sequence fee => .done (f.complete sequence fee a)

def resume (f : Autofill) : Reply → Progress Autofill Result
  | .ok a => f.take a
  | .error text => .done (.error (.unanswered text))

end Autofill

end OfferDesk
