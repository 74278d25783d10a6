-- Finality: what becomes of a submitted transaction. It is asked for until it is validated, or
-- until a ledger is validated past the last one that could take it in.
import OfferDesk.Ledger.Inquiry
import OfferDesk.Outcome
import OfferDesk.Transaction

namespace OfferDesk

/-! ## One observation -/

/-- What a lookup says of a transaction. -/
inductive Lookup where
  | notFound
  | pending
  | validated (outcome : Outcome)
deriving DecidableEq, Inhabited

/-- A lookup, and the newest validated ledger as it was read before. -/
structure Observation where
  latestValidated : UInt32
  lookup : Lookup
deriving DecidableEq, Inhabited

inductive Judgement where
  | goOn
  | validated (outcome : Outcome)
  | expired (lastLedger latestValidated : UInt32)
deriving DecidableEq, Inhabited

structure Poll where
  hash : String
  /-- The last ledger that can take the transaction in. -/
  lastLedger : UInt32
  /-- The observations so far. They are counted without a bound here; a counter of 32 bits agrees
  with them through `2 ^ 32 - 1` observations. -/
  attempts : Nat
deriving DecidableEq, Inhabited

namespace Poll

/-- What an observation says. A validated transaction counts even past the last ledger: it got in
before. -/
def judge (p : Poll) (o : Observation) : Judgement :=
  match o.lookup with
  | .validated outcome => .validated outcome
  | .notFound | .pending =>
    if p.lastLedger < o.latestValidated then .expired p.lastLedger o.latestValidated else .goOn

def observe (p : Poll) (o : Observation) : Poll × Judgement :=
  ({ p with attempts := p.attempts + 1 }, p.judge o)

end Poll

/-! ## Reading the answers -/

/-- The ledger index of a payload, as a number or in a string. -/
def ledgerIndexOf? (j : Json) : Option UInt32 := do
  let value ← j.field? "ledger_index"
  let index ← value.word64? <|> value.string?.bind fun s => Text.word64? s.toList
  if index.toNat < UInt32.size then some index.toUInt32 else none

namespace Lookup

/-- What the answer to a lookup says; nothing where it is no use. -/
def ofAnswer? (a : Answer) : Option Lookup :=
  if a.success then
    (Outcome.ofLookup? a.result).map fun o => if o.validated then .validated o else .pending
  else if a.errorCode? = some "txnNotFound" then some .notFound
  else none

end Lookup

/-- The newest validated ledger in an answer; nothing where it is no use. -/
def validatedIndex? (a : Answer) : Option UInt32 :=
  if a.success then ledgerIndexOf? a.result else none

/-! ## Polling -/

/-- What became of a submission. -/
inductive Finality where
  | validated (outcome : Outcome)
  | expired (lastLedger : UInt32)
  /-- There was nothing to verify, or the ledger could not be asked. -/
  | failed
deriving DecidableEq, Inhabited

/-- What a watch waits for: the newest validated ledger, or the lookup after it. -/
inductive Watch.Stage where
  | index
  | lookup (latestValidated : UInt32)
deriving DecidableEq, Inhabited

structure Watch where
  poll : Poll
  /-- Milliseconds between two rounds. -/
  interval : Nat
  stage : Watch.Stage
deriving DecidableEq, Inhabited

namespace Watch

def ask (poll : Poll) (interval pause : Nat) : Progress Watch Finality :=
  .ask pause .validatedLedger ⟨poll, interval, .index⟩

/-- Watches a submission. There is nothing to watch without a signed transaction, a preliminary
result and a last ledger. -/
def start (signed : Option SignedTransaction) (preliminary : Option String) (interval : Nat) :
    Progress Watch Finality :=
  match signed, preliminary with
  | some s, some _ =>
    match s.transaction.lastLedger with
    | some last => ask ⟨s.hash, last, 0⟩ interval 0
    | none => .done .failed
  | _, _ => .done .failed

def conclude (w : Watch) (o : Observation) : Progress Watch Finality :=
  match w.poll.observe o with
  | (poll, .goOn) => ask poll w.interval w.interval
  | (_, .validated outcome) => .done (.validated outcome)
  | (_, .expired last _) => .done (.expired last)

def take (w : Watch) (a : Answer) : Progress Watch Finality :=
  match w.stage with
  | .index =>
    match validatedIndex? a with
    | some latest => .ask 0 (.transaction w.poll.hash) { w with stage := .lookup latest }
    | none => .done .failed
  | .lookup latest =>
    match Lookup.ofAnswer? a with
    | some lookup => w.conclude ⟨latest, lookup⟩
    | none => .done .failed

def resume (w : Watch) : Reply → Progress Watch Finality
  | .ok a => w.take a
  | .error _ => .done .failed

end Watch

/-! ## The verdict -/

/-- A success, or the failure that a verification means for an order. -/
def Finality.verdict (v : Finality) (clientId exchangeId : String) :
    Except Failure Outcome :=
  match v with
  | .validated o =>
    if o.isSuccess then .ok o else .error (.rejected clientId exchangeId o.engineResult)
  | .expired _ => .error (.expired clientId exchangeId)
  | .failed => .error (.unverified clientId exchangeId)

end OfferDesk
