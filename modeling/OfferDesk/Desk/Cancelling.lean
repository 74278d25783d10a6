-- Cancelling an order. While a cancel is under way the order says so; if the cancel comes to
-- nothing, the order goes back to the state it was in, unless something else has moved it.
import OfferDesk.Desk.Placing

namespace OfferDesk

structure CancelOrder where
  clientId : String
  exchangeId : String
  /-- The state that the order was in. -/
  previous : OrderState
deriving DecidableEq, Inhabited

/-- What a cancel waits for: what its transaction is filled in with, the answer to its
submission, or the verdict on it. -/
inductive Cancelling.Stage where
  | filling (autofill : Autofill)
  | submitting (signed : SignedTransaction)
  | watching (watch : Watch)
deriving DecidableEq, Inhabited

structure Cancelling where
  cancel : CancelOrder
  stage : Cancelling.Stage
deriving DecidableEq, Inhabited

namespace Cancelling

/-- Takes an order back to the state it was in before a cancel, if that is still under way. -/
def restore (s : DeskState) (c : CancelOrder) : DeskState :=
  if s.isIn c.clientId .pendingCancel then s.move c.clientId c.previous else s

def fail (s : DeskState) (c : CancelOrder) : Turn Cancelling Bool := (restore s c, .done false)

/-- The desk when nobody waits for a cancel any more. -/
def drop (w : Cancelling) (s : DeskState) : DeskState := restore s w.cancel

def finish (d : Desk) (c : CancelOrder) (s : DeskState) (v : Finality) :
    Turn Cancelling Bool :=
  match v.verdict c.clientId c.exchangeId with
  | .error _ => fail s c
  | .ok outcome =>
    match s.applyFills? d outcome with
    | none => (s, .halted)
    | some s => (s.move c.clientId .canceled, .done true)

def watch (d : Desk) (c : CancelOrder) (s : DeskState) (p : Progress Watch Finality) :
    Turn Cancelling Bool :=
  Turn.andThen (s, p) (⟨c, .watching ·⟩) (finish d c)

/-- Signs a transaction that is filled in, and submits it. -/
def filled (d : Desk) (c : CancelOrder) (s : DeskState) :
    Autofill.Result → Turn Cancelling Bool
  | .error _ => fail s c
  | .ok t =>
    match s.sign d t with
    | (s, .error _) => fail s c
    | (s, .ok signed) => (s, .ask 0 (.submit signed.blob) ⟨c, .submitting signed⟩)

def fill (d : Desk) (c : CancelOrder) (s : DeskState) (p : Progress Autofill Autofill.Result) :
    Turn Cancelling Bool :=
  Turn.andThen (s, p) (⟨c, .filling ·⟩) (filled d c)

/-- Tracks an order unless another is tracked under the id. -/
def known (s : DeskState) (clientId : String) (order : Order) : DeskState :=
  match s.order? clientId with
  | some _ => s
  | none => s.track order

/-- Cancels an order under a client id. One without an exchange id cannot be cancelled. -/
def start (d : Desk) (s : DeskState) (clientId : String) (order : Order) :
    Turn Cancelling Bool :=
  match order.sequence? with
  | none => (s, .done false)
  | some sequence =>
    let s := known s clientId order
    let previous := ((s.order? clientId).map (·.state)).getD order.state
    fill d ⟨clientId, order.exchangeId.getD "", previous⟩ (s.move clientId .pendingCancel)
      (Autofill.start (.cancelOf d.account sequence clientId) d.config.ledgerOffset)

def resume (d : Desk) (s : DeskState) (w : Cancelling) (reply : Reply) :
    Turn Cancelling Bool :=
  match w.stage with
  | .filling autofill => fill d w.cancel s (autofill.resume reply)
  | .submitting signed =>
    watch d w.cancel s (Watch.start (some signed) reply.preliminary? d.pollInterval)
  | .watching watching => watch d w.cancel s (watching.resume reply)

end Cancelling

end OfferDesk
