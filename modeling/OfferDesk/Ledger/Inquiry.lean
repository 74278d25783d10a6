-- Inquiries: work that asks a ledger node one thing after another. An inquiry is data, so it can
-- be held back between a request and its reply, and other work can be done in the meantime.
import OfferDesk.Ledger.Request

namespace OfferDesk

/-- How far an inquiry has come: it waits, for so many milliseconds first, for the reply to a
request, or it is done, or it has stopped because an amount left the range of decimals. -/
inductive Progress (σ α : Type) where
  | ask (pause : Nat) (request : Request) (state : σ)
  | done (result : α)
  | halted
deriving Inhabited

namespace Progress

variable {σ τ α β : Type}

/-- The same progress of a larger inquiry: the states are put into its states, and a result is
carried on by it. -/
def andThen (p : Progress σ α) (embed : σ → τ) (next : α → Progress τ β) : Progress τ β :=
  match p with
  | ask pause request s => .ask pause request (embed s)
  | done a => next a
  | halted => .halted

end Progress

end OfferDesk
