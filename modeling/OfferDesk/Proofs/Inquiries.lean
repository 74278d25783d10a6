-- Inquiries put to a ledger. The ledger may reply to the same request in one way now and in another
-- later, so it is given by what it replies to each request in its place.
import OfferDesk.Ledger.Inquiry

namespace OfferDesk

/-- What a ledger replies to a request, by the number of requests before it. -/
abbrev LedgerReplies := Nat → Request → Reply

namespace Progress

variable {σ α : Type} {resume : σ → Reply → Progress σ α} {ledger : LedgerReplies}
  {asked : List Request}

/-- Puts an inquiry that has asked for some things to a ledger, for so many replies at most. Gives
all that it has asked for and got a reply to by then, and how far it has come. -/
def conduct (resume : σ → Reply → Progress σ α) (ledger : LedgerReplies) :
    (replies : Nat) → (asked : List Request) → Progress σ α → List Request × Progress σ α
  | n + 1, asked, .ask _ request s =>
    conduct resume ledger n (asked ++ [request]) (resume s (ledger asked.length request))
  | _, asked, p => (asked, p)

theorem conduct_ask (n pause : Nat) (request : Request) (s : σ) :
    conduct resume ledger (n + 1) asked (.ask pause request s) =
      conduct resume ledger n (asked ++ [request]) (resume s (ledger asked.length request)) :=
  rfl

/-- An inquiry that is done asks for nothing more. -/
@[simp] theorem conduct_done (n : Nat) (a : α) :
    conduct resume ledger n asked (.done a) = (asked, .done a) := by
  cases n <;> rfl

end Progress

end OfferDesk
