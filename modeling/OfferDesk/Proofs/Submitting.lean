-- How a transaction gets to the ledger: what an autofill fills in, and what a watch asks for and
-- learns from the replies.
import OfferDesk.Proofs.Watching
import OfferDesk.Submission.Autofill

namespace OfferDesk

/-! ## What is submitted -/

/-- The blobs that a request submits. -/
def Request.submits : Request → List String
  | submit blob => [blob]
  | _ => []

/-- The blobs that some work submits with what it asks. -/
def Progress.submits {σ α : Type} : Progress σ α → List String
  | .ask _ request _ => request.submits
  | _ => []

/-! ## Filling in -/

namespace Autofill

/-- What comes of an autofill of a transaction, if it is not over yet or has come to a result. It
submits nothing, and leaves nothing open that it fills in. -/
def Fills (t : Transaction) : Progress Autofill Result → Prop
  | .ask _ request f => f.transaction = t ∧ request.submits = []
  | .done (.ok t') => ∃ sequence fee last,
    t' = { t with sequence := some sequence, fee := some fee, lastLedger := some last }
  | .done (.error _) => True
  | .halted => False

theorem fills_start (t : Transaction) (offset : UInt32) : Fills t (start t offset) :=
  ⟨rfl, rfl⟩

theorem fills_complete (f : Autofill) (sequence : Nat) (fee : String) (a : Answer) :
    Fills f.transaction (.done (f.complete sequence fee a)) := by
  unfold complete
  cases number "ledger_current response" a ["ledger_current_index"] "ledger_current_index" with
  | error e => trivial
  | ok current =>
    cases word sequence with
    | error e => trivial
    | ok n =>
      cases hlast : lastLedger current f.offset with
      | error e =>
        simp only [Except.bind, bind, hlast]
        trivial
      | ok last =>
        simp only [Except.bind, bind, hlast]
        exact ⟨n, fee, last, rfl⟩

theorem fills_resume (f : Autofill) (reply : Reply) : Fills f.transaction (f.resume reply) := by
  cases reply with
  | error text => trivial
  | ok a =>
    unfold resume take
    dsimp only
    split
    · split
      · exact ⟨rfl, rfl⟩
      · trivial
    · split
      · exact ⟨rfl, rfl⟩
      · trivial
    · rename_i sequence fee _
      exact fills_complete f sequence fee a

end Autofill

/-! ## Watching -/

namespace Watch

/-- What a watch over a hash asks for: the newest validated ledger, and then the transaction. -/
def Asks (hash : String) (request : Request) (w : Watch) : Prop :=
  w.poll.hash = hash ∧
    match w.stage with
    | .index => request = .validatedLedger
    | .lookup _ => request = .transaction hash

/-- What comes of a watch over a hash with the reply to a request. It takes the transaction for
validated only by the answer to a lookup of the hash. -/
def Learns (hash : String) (request : Request) (reply : Reply) : Progress Watch Finality → Prop
  | .ask _ request' w => w.Asks hash request'
  | .done (.validated o) => request = .transaction hash ∧
    ∃ a, reply = .ok a ∧ Lookup.ofAnswer? a = some (.validated o)
  | .done _ => True
  | .halted => False

variable {w : Watch} {hash : String} {request : Request}

theorem learns_start (signed : SignedTransaction) (preliminary : Option String) (interval : Nat)
    (reply : Reply) : Learns signed.hash request reply (start (some signed) preliminary interval) := by
  unfold start
  cases preliminary with
  | none => trivial
  | some _ =>
    dsimp only
    split
    · exact ⟨rfl, rfl⟩
    · trivial

theorem learns_resume (h : w.Asks hash request) (reply : Reply) :
    Learns hash request reply (w.resume reply) := by
  obtain ⟨hhash, hrequest⟩ := h
  cases reply with
  | error text => trivial
  | ok a =>
    unfold resume take
    dsimp only
    split
    · split
      · exact ⟨hhash, by rw [hhash]⟩
      · trivial
    · rename_i latest hstage
      rw [hstage] at hrequest
      split
      · rename_i found hfound
        by_cases hv : ∃ o, found = .validated o
        · obtain ⟨o, rfl⟩ := hv
          exact ⟨hrequest, a, rfl, hfound⟩
        · rw [conclude_open fun o ho => hv ⟨o, ho⟩]
          split
          · trivial
          · exact ⟨hhash, rfl⟩
      · trivial

theorem submits_start (signed : SignedTransaction) (preliminary : Option String) (interval : Nat) :
    (start (some signed) preliminary interval).submits = [] := by
  unfold start
  cases preliminary with
  | none => rfl
  | some _ =>
    dsimp only
    split <;> rfl

theorem submits_resume (w : Watch) (reply : Reply) : (w.resume reply).submits = [] := by
  cases reply with
  | error text => rfl
  | ok a =>
    unfold resume take conclude
    dsimp only
    split
    · split <;> rfl
    · split
      · split <;> rfl
      · rfl

end Watch

end OfferDesk
