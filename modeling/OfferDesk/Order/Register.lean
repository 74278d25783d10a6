-- The register of tracked orders, and how an order is found by the sequence that the ledger
-- knows it by.
import OfferDesk.Failure
import OfferDesk.Table

namespace OfferDesk

/-- The tracked orders, each under its own client id. -/
structure OrderRegister where
  orders : Table String Order
  keyed : ∀ e ∈ orders.entries, e.2.clientId = e.1
deriving DecidableEq

namespace OrderRegister

def empty : OrderRegister := ⟨.empty, fun _ h => nomatch h⟩

instance : Inhabited OrderRegister := ⟨empty⟩

/-- Tracks an order, in place of any other under its client id. -/
def track (r : OrderRegister) (o : Order) : OrderRegister :=
  ⟨r.orders.put o.clientId o, fun e h => by
    rcases Table.mem_putEntries h with rfl | h
    · rfl
    · exact r.keyed e h⟩

def untrack (r : OrderRegister) (clientId : String) : OrderRegister :=
  ⟨r.orders.erase clientId, fun e h => r.keyed e (List.mem_filter.mp h).1⟩

def find? (r : OrderRegister) (clientId : String) : Option Order := r.orders.find? clientId

def liveOrders (r : OrderRegister) : List Order := r.orders.values.filter (·.isLive)

/-- The live orders whose exchange id carries a sequence. -/
def carrying (r : OrderRegister) (sequence : UInt32) : List Order :=
  r.liveOrders.filter fun o => o.sequence? == some sequence

/-- The live order of a sequence. Where more than one carries it, none is taken for the one. -/
def resolve? (r : OrderRegister) (sequence : UInt32) : Option Order :=
  match r.carrying sequence with
  | [o] => some o
  | _ => none

/-- Gives an order its exchange id, unless another live order carries the sequence. -/
def assign (r : OrderRegister) (clientId : String) (id : ExchangeId) :
    Except OrderError OrderRegister :=
  match (r.carrying id.sequence).find? (·.clientId ≠ clientId) with
  | some owner => .error (.duplicateSequence clientId id.sequence owner.clientId)
  | none =>
    match r.find? clientId with
    | none => .error (.unknownOrder clientId)
    | some o => .ok (r.track { o with exchangeId := some id.text })

/-- The register with an order moved to a state, if it is tracked, in another state, and may move
there. -/
def move? (r : OrderRegister) (clientId : String) (state : OrderState) :
    Option (OrderRegister × Order) := do
  let o ← r.find? clientId
  if o.state ≠ state ∧ o.state.canMoveTo state then
    let o := { o with state := state }
    return (r.track o, o)
  else none

/-- Moves an order to a state if it may. -/
def move (r : OrderRegister) (clientId : String) (state : OrderState) : OrderRegister :=
  match r.move? clientId state with
  | some (r, _) => r
  | none => r

end OrderRegister

end OfferDesk
