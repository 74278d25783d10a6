-- A watch over a submitted transaction goes in rounds: it asks for the newest validated ledger and
-- then for the transaction. The first round that settles anything ends it, and only that round
-- counts. A reply that is no use ends the watch at once, a transaction that is found validated ends
-- it whatever the ledger, and otherwise a ledger past the last one does.
import Mathlib.Data.Nat.Find
import OfferDesk.Proofs.Inquiries
import OfferDesk.Proofs.Watching

namespace OfferDesk

/-! ## Rounds -/

/-- The replies of a round: to the request for the newest validated ledger, and to the one for the
transaction. -/
structure WatchRound where
  index : Reply
  lookup : Reply

/-- The replies of a ledger in a round, if every round before it took both of its requests. -/
def WatchRound.ofLedger (ledger : LedgerReplies) (hash : String) (i : Nat) : WatchRound :=
  ⟨ledger (2 * i) .validatedLedger, ledger (2 * i + 1) (.transaction hash)⟩

namespace WatchRound

/-- A reply that names the newest validated ledger. -/
inductive Names : Reply → UInt32 → Prop where
  | mk {a : Answer} {i : UInt32} (success : a.success = true)
      (index : ledgerIndexOf? a.result = some i) : Names (.ok a) i

/-- A reply that does not name it: none came, it is an error, or it has no index. -/
inductive NamesNone : Reply → Prop where
  | unanswered (text : String) : NamesNone (.error text)
  | refused {a : Answer} (failure : a.success = false) : NamesNone (.ok a)
  | missing {a : Answer} (success : a.success = true)
      (index : ledgerIndexOf? a.result = none) : NamesNone (.ok a)

/-- A reply that has the transaction validated. -/
inductive Finds : Reply → Outcome → Prop where
  | mk {a : Answer} {o : Outcome} (success : a.success = true)
      (read : Outcome.ofLookup? a.result = some o) (validated : o.validated = true) :
      Finds (.ok a) o

/-- A reply that does not have it validated yet. -/
inductive FindsNone : Reply → Prop where
  | unknown {a : Answer} (failure : a.success = false)
      (code : a.errorCode? = some "txnNotFound") : FindsNone (.ok a)
  | pending {a : Answer} {o : Outcome} (success : a.success = true)
      (read : Outcome.ofLookup? a.result = some o) (pending : o.validated = false) :
      FindsNone (.ok a)

/-- A reply that does not say what became of the transaction: none came, it is another error, or it
cannot be read. -/
inductive Unclear : Reply → Prop where
  | unanswered (text : String) : Unclear (.error text)
  | refused {a : Answer} (failure : a.success = false)
      (code : a.errorCode? ≠ some "txnNotFound") : Unclear (.ok a)
  | unreadable {a : Answer} (success : a.success = true)
      (read : Outcome.ofLookup? a.result = none) : Unclear (.ok a)

/-- A round that settles nothing: the transaction is not validated yet, and there may be a ledger
still that takes it in. -/
structure Open (last : UInt32) (r : WatchRound) : Prop where
  index : ∃ i, Names r.index i ∧ i ≤ last
  lookup : FindsNone r.lookup

/-- What a round that settles something comes to, and how many of its requests that takes. -/
inductive Closes (last : UInt32) (r : WatchRound) : Nat → Finality → Prop where
  | noIndex : NamesNone r.index → Closes last r 1 .failed
  | noLookup {i : UInt32} : Names r.index i → Unclear r.lookup → Closes last r 2 .failed
  | validated {i : UInt32} {o : Outcome} :
      Names r.index i → Finds r.lookup o → Closes last r 2 (.validated o)
  | expired {i : UInt32} :
      Names r.index i → FindsNone r.lookup → last < i → Closes last r 2 (.expired last)

end WatchRound

/-! ## What a watch makes of a reply -/

namespace Watch

open WatchRound

variable {poll : Poll} {interval pause : Nat} {latest : UInt32} {reply : Reply}

theorem resume_of_names (h : Names reply latest) : resume ⟨poll, interval, .index⟩ reply =
    .ask 0 (.transaction poll.hash) ⟨poll, interval, .lookup latest⟩ := by
  obtain ⟨hsuccess, hindex⟩ := h
  simp only [resume, take, validatedIndex?, hsuccess, if_true, hindex]

theorem resume_of_namesNone (h : NamesNone reply) :
    resume ⟨poll, interval, .index⟩ reply = .done .failed := by
  cases h with
  | unanswered text => rfl
  | refused hfailure => simp [resume, take, validatedIndex?, hfailure]
  | missing hsuccess hindex => simp [resume, take, validatedIndex?, hsuccess, hindex]

theorem resume_of_finds {o : Outcome} (h : Finds reply o) :
    resume ⟨poll, interval, .lookup latest⟩ reply = .done (.validated o) := by
  obtain ⟨hsuccess, hread, hvalidated⟩ := h
  simp [resume, take, Lookup.ofAnswer?, hsuccess, hread, hvalidated, conclude, Poll.observe,
    Poll.judge]

theorem resume_of_unclear (h : Unclear reply) :
    resume ⟨poll, interval, .lookup latest⟩ reply = .done .failed := by
  cases h with
  | unanswered text => rfl
  | refused hfailure hcode => simp [resume, take, Lookup.ofAnswer?, hfailure, hcode]
  | unreadable hsuccess hread => simp [resume, take, Lookup.ofAnswer?, hsuccess, hread]

theorem resume_of_findsNone (h : FindsNone reply) :
    resume ⟨poll, interval, .lookup latest⟩ reply =
      if poll.lastLedger < latest then .done (.expired poll.lastLedger)
      else ask { poll with attempts := poll.attempts + 1 } interval interval := by
  cases h with
  | unknown hfailure hcode =>
    simp only [resume, take, Lookup.ofAnswer?, hfailure, hcode, Bool.false_eq_true, if_false,
      if_true]
    exact conclude_open fun o ho => nomatch ho
  | pending hsuccess hread hpending =>
    simp only [resume, take, Lookup.ofAnswer?, hsuccess, hread, hpending, Bool.false_eq_true,
      if_false, if_true, Option.map_some]
    exact conclude_open fun o ho => nomatch ho

/-! ## A watch put to a ledger -/

/-- The first requests of a watch: the newest validated ledger and the transaction, in turn. -/
def turns (hash : String) (n : Nat) : List Request :=
  (List.range n).map fun i => if i % 2 = 0 then .validatedLedger else .transaction hash

variable {ledger : LedgerReplies} {n used : Nat} {f : Finality}

@[simp] theorem length_turns (hash : String) (n : Nat) : (turns hash n).length = n := by
  simp [turns]

theorem turns_index (hash : String) (n : Nat) :
    turns hash (2 * n) ++ [.validatedLedger] = turns hash (2 * n + 1) := by
  simp [turns, List.range_succ]

theorem turns_lookup (hash : String) (n : Nat) :
    turns hash (2 * n + 1) ++ [.transaction hash] = turns hash (2 * n + 2) := by
  have hodd : (2 * n + 1) % 2 = 1 := by omega
  simp [turns, List.range_succ, hodd]

/-- A watch that has gone through some rounds takes the first reply of the next one. -/
theorem conduct_index (k : Nat) : Progress.conduct resume ledger (k + 1)
    (turns poll.hash (2 * n)) (ask poll interval pause) =
      Progress.conduct resume ledger k (turns poll.hash (2 * n + 1))
        (resume ⟨poll, interval, .index⟩ (ofLedger ledger poll.hash n).index) := by
  rw [ask, Progress.conduct_ask, length_turns, turns_index]
  rfl

/-- Once it knows the newest validated ledger it takes the second one as well. -/
theorem conduct_lookup (h : Names (ofLedger ledger poll.hash n).index latest) (k : Nat) :
    Progress.conduct resume ledger (k + 2) (turns poll.hash (2 * n)) (ask poll interval pause) =
      Progress.conduct resume ledger k (turns poll.hash (2 * n + 2))
        (resume ⟨poll, interval, .lookup latest⟩ (ofLedger ledger poll.hash n).lookup) := by
  rw [conduct_index, resume_of_names h, Progress.conduct_ask, length_turns, turns_lookup]
  rfl

/-- A round that settles nothing leaves a watch as it was, but for the count of its rounds. -/
theorem conduct_open_round (poll : Poll)
    (hopen : (ofLedger ledger poll.hash n).Open poll.lastLedger) (k : Nat) :
    Progress.conduct resume ledger (k + 2) (turns poll.hash (2 * n)) (ask poll interval pause) =
      Progress.conduct resume ledger k (turns poll.hash (2 * (n + 1)))
        (ask { poll with attempts := poll.attempts + 1 } interval interval) := by
  obtain ⟨⟨latest, hindex, hlatest⟩, hlookup⟩ := hopen
  rw [conduct_lookup hindex, resume_of_findsNone hlookup, if_neg (UInt32.not_lt.mpr hlatest)]
  rfl

theorem conduct_open_rounds (poll : Poll) (interval pause : Nat)
    (hopen : ∀ i < n, (ofLedger ledger poll.hash i).Open poll.lastLedger) (k : Nat) :
    ∃ pause', Progress.conduct resume ledger (2 * n + k) [] (ask poll interval pause) =
      Progress.conduct resume ledger k (turns poll.hash (2 * n))
        (ask { poll with attempts := poll.attempts + n } interval pause') := by
  induction n generalizing k with
  | zero => exact ⟨pause, by rw [Nat.mul_zero, Nat.zero_add]; rfl⟩
  | succ n ih =>
    obtain ⟨pause', hbefore⟩ := ih (fun i hi => hopen i (Nat.lt_succ_of_lt hi)) (k + 2)
    have hcount : 2 * (n + 1) + k = 2 * n + (k + 2) := by omega
    refine ⟨interval, ?_⟩
    rw [hcount, hbefore]
    exact conduct_open_round { poll with attempts := poll.attempts + n }
      (hopen n (Nat.lt_succ_self n)) k

/-- A round that settles something ends a watch. -/
theorem conduct_closing_round (poll : Poll)
    (hclose : (ofLedger ledger poll.hash n).Closes poll.lastLedger used f) (k : Nat) :
    Progress.conduct resume ledger (used + k) (turns poll.hash (2 * n)) (ask poll interval pause) =
      (turns poll.hash (2 * n + used), .done f) := by
  rw [Nat.add_comm]
  cases hclose with
  | noIndex hindex => rw [conduct_index, resume_of_namesNone hindex, Progress.conduct_done]
  | noLookup hindex hlookup =>
    rw [conduct_lookup hindex, resume_of_unclear hlookup, Progress.conduct_done]
  | validated hindex hlookup =>
    rw [conduct_lookup hindex, resume_of_finds hlookup, Progress.conduct_done]
  | expired hindex hlookup hpast =>
    rw [conduct_lookup hindex, resume_of_findsNone hlookup, if_pos hpast, Progress.conduct_done]

/-- A watch over a signed transaction, through rounds that settle nothing and one that does. -/
theorem conduct_start {signed : SignedTransaction} {last : UInt32}
    (hlast : signed.transaction.lastLedger = some last) (preliminary : String) (interval : Nat)
    (hopen : ∀ i < n, (ofLedger ledger signed.hash i).Open last)
    (hclose : (ofLedger ledger signed.hash n).Closes last used f) {replies : Nat}
    (hreplies : 2 * n + used ≤ replies) :
    Progress.conduct resume ledger replies [] (start (some signed) (some preliminary) interval) =
      (turns signed.hash (2 * n + used), .done f) := by
  obtain ⟨k, rfl⟩ := Nat.exists_eq_add_of_le hreplies
  have hstart : start (some signed) (some preliminary) interval =
      ask ⟨signed.hash, last, 0⟩ interval 0 := by
    simp only [start, hlast]
  obtain ⟨pause, hrounds⟩ := conduct_open_rounds ⟨signed.hash, last, 0⟩ interval 0 hopen (used + k)
  rw [hstart, Nat.add_assoc, hrounds]
  exact conduct_closing_round ⟨signed.hash, last, 0 + n⟩ hclose k

open LedgerHistory (indexAnswer lateCancel lateCancelAnswer)

end Watch

end OfferDesk
