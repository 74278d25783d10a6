-- What a watch over a transaction concludes is true of the ledger, however the ledgers close
-- between its requests. The newest validated ledger is read before the lookup, so a lookup that
-- finds nothing past the last ledger has looked at every ledger that could have it.
import OfferDesk.Submission.Finality

namespace OfferDesk

/-- A lookup that does not find a transaction validated ends its watch only past the last ledger. -/
theorem Watch.conclude_open {w : Watch} {latest : UInt32} {found : Lookup}
    (h : ∀ o, found ≠ .validated o) : w.conclude ⟨latest, found⟩ =
      if w.poll.lastLedger < latest then .done (.expired w.poll.lastLedger)
      else ask { w.poll with attempts := w.poll.attempts + 1 } w.interval w.interval := by
  unfold conclude Poll.observe Poll.judge
  cases found with
  | validated o => exact absurd rfl (h o)
  | notFound => by_cases hpast : w.poll.lastLedger < latest <;> simp [hpast]
  | pending => by_cases hpast : w.poll.lastLedger < latest <;> simp [hpast]

/-! ## The ledger -/

/-- One transaction in the validated ledgers, those to come included: the outcome with which a
ledger has it. It gets into one ledger at most, and into none past its last one. -/
structure LedgerHistory where
  hash : String
  lastLedger : UInt32
  outcomeIn : UInt32 → Option Outcome
  once : ∀ i j a b, outcomeIn i = some a → outcomeIn j = some b → i = j
  inTime : ∀ i a, outcomeIn i = some a → i ≤ lastLedger

namespace LedgerHistory

/-- Whether a request may get a reply while `v` is the newest validated ledger. Any request may
fail, and an answer may be one that cannot be read. What can be read is true: the index is `v`,
and a lookup of the transaction finds it validated just where a ledger up to `v` has it. -/
def Tells (L : LedgerHistory) (v : UInt32) : Request → Reply → Prop
  | .validatedLedger, .ok a => ∀ i, validatedIndex? a = some i → i = v
  | .transaction hash, .ok a => hash = L.hash → ∀ found, Lookup.ofAnswer? a = some found →
      ∀ o, found = .validated o ↔ ∃ i ≤ v, L.outcomeIn i = some o
  | _, _ => True

/-- How far a watch over the transaction may have come when `v` is the newest validated ledger.
Any number of ledgers may close before the next reply. -/
inductive Watched (L : LedgerHistory) : Progress Watch Finality → UInt32 → Prop where
  | start (attempts interval pause : Nat) (v : UInt32) :
    L.Watched (Watch.ask ⟨L.hash, L.lastLedger, attempts⟩ interval pause) v
  | reply {pause : Nat} {request : Request} {w : Watch} {v : UInt32} {reply : Reply} (v' : UInt32) :
    L.Watched (.ask pause request w) v → v ≤ v' → L.Tells v' request reply →
      L.Watched (w.resume reply) v'

/-! ## What a watch knows -/

/-- What holds of a watch at all times. In the second half of a round the index it has read is not
past the newest validated ledger, and what it concludes is true. -/
def Sound (L : LedgerHistory) (v : UInt32) : Progress Watch Finality → Prop
  | .ask _ request w => w.poll.hash = L.hash ∧ w.poll.lastLedger = L.lastLedger ∧
    match w.stage with
    | .index => request = .validatedLedger
    | .lookup latest => request = .transaction L.hash ∧ latest ≤ v
  | .done (.validated o) => ∃ i ≤ v, L.outcomeIn i = some o
  | .done (.expired last) => last = L.lastLedger ∧ ∀ i, L.outcomeIn i = none
  | .done .failed => True
  | .halted => False

variable {L : LedgerHistory} {v v' latest : UInt32} {w : Watch}

theorem sound_ask {poll : Poll} {interval pause : Nat} (hh : poll.hash = L.hash)
    (hl : poll.lastLedger = L.lastLedger) : L.Sound v (Watch.ask poll interval pause) :=
  ⟨hh, hl, rfl⟩

/-- A transaction that no ledger up to `v` has is in no ledger at all once `v` is past the last
one. -/
theorem never_of_past (hv : L.lastLedger < v) (h : ∀ i ≤ v, L.outcomeIn i = none) :
    ∀ i, L.outcomeIn i = none := by
  intro i
  cases ho : L.outcomeIn i with
  | none => rfl
  | some o =>
    have hi : i ≤ v := UInt32.le_of_lt (UInt32.lt_of_le_of_lt (L.inTime i o ho) hv)
    rw [h i hi] at ho
    cases ho

/-- What follows from a lookup that tells the truth is sound. -/
theorem sound_conclude {found : Lookup} (hh : w.poll.hash = L.hash)
    (hl : w.poll.lastLedger = L.lastLedger) (hlatest : latest ≤ v)
    (ht : ∀ o, found = .validated o ↔ ∃ i ≤ v, L.outcomeIn i = some o) :
    L.Sound v (w.conclude ⟨latest, found⟩) := by
  by_cases hf : ∃ o, found = .validated o
  · obtain ⟨o, rfl⟩ := hf
    exact (ht o).mp rfl
  · rw [Watch.conclude_open fun o ho => hf ⟨o, ho⟩]
    split
    · rename_i hpast
      rw [hl] at hpast
      refine ⟨hl, never_of_past (UInt32.lt_of_lt_of_le hpast hlatest) fun i hi => ?_⟩
      cases ho : L.outcomeIn i with
      | none => rfl
      | some o => exact absurd ⟨o, (ht o).mpr ⟨i, hi, ho⟩⟩ hf
    · exact sound_ask hh hl

/-- Ledgers may close while a watch waits. -/
theorem sound_later {pause : Nat} {request : Request} (h : L.Sound v (.ask pause request w))
    (hv : v ≤ v') : L.Sound v' (.ask pause request w) := by
  obtain ⟨hh, hl, hs⟩ := h
  refine ⟨hh, hl, ?_⟩
  cases hstage : w.stage with
  | index => simpa only [hstage] using hs
  | lookup latest =>
    simp only [hstage] at hs
    exact ⟨hs.1, UInt32.le_trans hs.2 hv⟩

/-- A reply that tells the truth keeps a watch sound. -/
theorem sound_resume {pause : Nat} {request : Request} {reply : Reply}
    (h : L.Sound v (.ask pause request w)) (ht : L.Tells v request reply) :
    L.Sound v (w.resume reply) := by
  obtain ⟨hh, hl, hs⟩ := h
  cases reply with
  | error text => exact trivial
  | ok a =>
    unfold Watch.resume Watch.take
    cases hstage : w.stage with
    | index =>
      simp only [hstage] at hs ⊢
      subst hs
      cases hi : validatedIndex? a with
      | none => exact trivial
      | some i =>
        cases ht i hi
        exact ⟨hh, hl, by rw [hh], UInt32.le_refl _⟩
    | lookup latest =>
      simp only [hstage] at hs ⊢
      obtain ⟨rfl, hlatest⟩ := hs
      cases hf : Lookup.ofAnswer? a with
      | none => exact trivial
      | some found => exact sound_conclude hh hl hlatest (ht rfl found hf)

theorem sound_of_watched {p : Progress Watch Finality} (h : L.Watched p v) : L.Sound v p := by
  induction h with
  | start attempts interval pause v => exact sound_ask rfl rfl
  | reply _ _ hv ht ih => exact sound_resume (sound_later ih hv) ht

/-! ## What a watch concludes -/

/-- A watch gives a transaction up only if no ledger has it and none ever will, and calls it
validated only with the outcome that the one ledger that has it gives. -/
theorem watch_concludes_the_truth {p : Progress Watch Finality} (h : L.Watched p v) :
    (∀ last, p = .done (.expired last) → ∀ i, L.outcomeIn i = none) ∧
    (∀ o, p = .done (.validated o) →
      ∃ i ≤ v, ∀ j a, L.outcomeIn j = some a ↔ j = i ∧ a = o) := by
  have hs := sound_of_watched h
  constructor
  · rintro last rfl
    exact hs.2
  · rintro o rfl
    obtain ⟨i, hi, ho⟩ := hs
    refine ⟨i, hi, fun j a => ⟨fun ha => ?_, ?_⟩⟩
    · have hj : j = i := L.once j i a o ha ho
      subst hj
      rw [ho] at ha
      exact ⟨rfl, (Option.some.inj ha).symm⟩
    · rintro ⟨rfl, rfl⟩
      exact ho

theorem tells_index (a : Answer) (h : validatedIndex? a = some v) :
    L.Tells v .validatedLedger (.ok a) := by
  intro i hi
  rw [h] at hi
  exact (Option.some.inj hi).symm

theorem tells_lookup (a : Answer) (found : Lookup) (h : Lookup.ofAnswer? a = some found)
    (ht : ∀ o, found = .validated o ↔ ∃ i ≤ v, L.outcomeIn i = some o) :
    L.Tells v (.transaction L.hash) (.ok a) := by
  intro _ found' hf
  rw [h] at hf
  cases hf
  exact ht

/-! One transaction gets in after the first look at it, and is found when its time is up. Another
never does. -/

def indexAnswer (i : Nat) : Answer := .ofResult (.object [("ledger_index", .ofNat i)])

def lateCancel : Outcome where
  hash := "C0FFEE"
  transaction := ⟨"rMe", "OfferCancel", 3, none, none, 0, none, none, some 2⟩
  engineResult := "tesSUCCESS"
  nodes := []
  ledgerIndex := some 9
  validated := true
  date := none

def lateCancelAnswer : Answer := .ofResult (.object [
  ("Account", .string "rMe"), ("TransactionType", .string "OfferCancel"), ("Sequence", .ofNat 3),
  ("OfferSequence", .ofNat 2), ("hash", .string "C0FFEE"), ("ledger_index", .ofNat 9),
  ("meta", .object [("AffectedNodes", .array []), ("TransactionResult", .string "tesSUCCESS")]),
  ("validated", .bool true)])

def gotIn : LedgerHistory where
  hash := "C0FFEE"
  lastLedger := 10
  outcomeIn i := if i = 9 then some lateCancel else none
  once i j a b hi hj := by
    split at hi <;> split at hj <;> simp_all
  inTime i a hi := by
    split at hi
    · rename_i h9
      subst h9
      decide
    · cases hi

def neverIn : LedgerHistory where
  hash := "C0FFEE"
  lastLedger := 10
  outcomeIn _ := none
  once _ _ _ _ h := nomatch h
  inTime _ _ h := nomatch h

theorem outcomeIn_gotIn {i : UInt32} {o : Outcome} :
    gotIn.outcomeIn i = some o ↔ i = 9 ∧ o = lateCancel := by
  unfold gotIn
  dsimp only
  split <;> simp_all [eq_comm]

/-- The watch of the first one goes through two rounds. -/
theorem watched_gotIn : gotIn.Watched (.done (.validated lateCancel)) 12 := by
  have h := Watched.start (L := gotIn) 0 1000 0 7
  have h := h.reply 8 (by decide) (tells_index (indexAnswer 8) (by decide +kernel))
  have h := h.reply 8 (by decide)
    (tells_lookup (.ofError "txnNotFound") .notFound (by decide +kernel) (by
      intro o
      simp only [outcomeIn_gotIn, reduceCtorEq, false_iff]
      rintro ⟨i, hi, rfl, _⟩
      exact absurd hi (by decide)))
  have h := h.reply 9 (by decide) (tells_index (indexAnswer 9) (by decide +kernel))
  exact h.reply 12 (by decide)
    (tells_lookup lateCancelAnswer (.validated lateCancel) (by decide +kernel) (by
      intro o
      simp only [outcomeIn_gotIn, Lookup.validated.injEq]
      constructor
      · rintro rfl
        exact ⟨9, by decide, rfl, rfl⟩
      · rintro ⟨_, _, _, rfl⟩
        rfl))

/-- The watch of the second one gives up after the ledger past its last one. -/
theorem watched_neverIn : neverIn.Watched (.done (.expired 10)) 11 := by
  have h := Watched.start (L := neverIn) 0 1000 0 7
  have h := h.reply 11 (by decide) (tells_index (indexAnswer 11) (by decide +kernel))
  exact h.reply 11 (by decide)
    (tells_lookup (.ofError "txnNotFound") .notFound (by decide +kernel) (by
      intro o
      simp [neverIn]))

theorem watches_that_conclude :
    (gotIn.Watched (.done (.validated lateCancel)) 12 ∧
      ∃ i ≤ 12, ∀ j a, gotIn.outcomeIn j = some a ↔ j = i ∧ a = lateCancel) ∧
    (neverIn.Watched (.done (.expired 10)) 11 ∧ ∀ i, neverIn.outcomeIn i = none) :=
  ⟨⟨watched_gotIn, (watch_concludes_the_truth watched_gotIn).2 lateCancel rfl⟩,
    ⟨watched_neverIn, (watch_concludes_the_truth watched_neverIn).1 10 rfl⟩⟩

end LedgerHistory

end OfferDesk
