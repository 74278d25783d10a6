-- A call that is tried again: how often it runs, which of its results counts, and how long the
-- pauses between its runs are. What is left of the budget goes down as the number of the run goes
-- up, and the two always add up to the budget at the start.
import Mathlib.Algebra.BigOperators.Group.Finset.Basic
import OfferDesk.Ledger.Retry

namespace OfferDesk

namespace Retried

variable {ε α : Type} {base : UInt64} {call call' : Nat → Except ε α} {retries : UInt32}
  {run budget k m n : Nat} {a : α} {e : ε}

/-! ## Where a call stops -/

/-- The first runs of a call, so many of them, fail. -/
def Fails (call : Nat → Except ε α) (n : Nat) : Prop := ∀ run < n, ∃ e, call run = .error e

/-- A call stops after so many retries: all runs before the last one failed, and either that one
did not or the budget is used up. -/
structure Stops (call : Nat → Except ε α) (budget n : Nat) : Prop where
  within : n ≤ budget
  failed : Fails call n
  last : n < budget → ∃ a, call n = .ok a

theorem Fails.mono (h : Fails call n) (hmn : m ≤ n) : Fails call m := by
  intro run hrun
  exact h run (Nat.lt_of_lt_of_le hrun hmn)

theorem Fails.succ (h : Fails call n) (he : call n = .error e) : Fails call (n + 1) := by
  intro run hrun
  rcases Nat.lt_succ_iff_lt_or_eq.mp hrun with hlt | rfl
  · exact h run hlt
  · exact ⟨e, he⟩

/-- A run that succeeds is none of those that fail. -/
theorem Fails.le (h : Fails call n) (ha : call k = .ok a) : n ≤ k := by
  by_contra hkn
  obtain ⟨e, he⟩ := h k (Nat.lt_of_not_le hkn)
  rw [ha] at he
  cases he

/-- A run that failed is the last one only where the budget is used up. -/
theorem Stops.eq_of_error (h : Stops call budget n) (he : call n = .error e) : n = budget := by
  by_contra hne
  obtain ⟨a, ha⟩ := h.last (Nat.lt_of_le_of_ne h.within hne)
  rw [he] at ha
  cases ha

/-- However its runs go, a call stops within any budget. -/
theorem exists_stops (call : Nat → Except ε α) (budget : Nat) : ∃ n, Stops call budget n := by
  induction budget with
  | zero => exact ⟨0, Nat.le_refl 0, fun run hrun => by omega, fun h => by omega⟩
  | succ budget ih =>
    obtain ⟨n, hn⟩ := ih
    rcases hcall : call n with e | a
    · obtain rfl := hn.eq_of_error hcall
      exact ⟨n + 1, Nat.le_refl _, hn.failed.succ hcall, fun h => absurd h (Nat.lt_irrefl _)⟩
    · exact ⟨n, Nat.le_succ_of_le hn.within, hn.failed, fun _ => ⟨a, hcall⟩⟩

namespace Stops

theorem eq_min (h : Stops call budget n) (hfails : Fails call k) (ha : call k = .ok a) :
    n = min k budget := by
  have hle : n ≤ k := h.failed.le ha
  have hwithin := h.within
  by_cases hn : n < budget
  · obtain ⟨b, hb⟩ := h.last hn
    have hge : k ≤ n := hfails.le hb
    omega
  · omega

theorem eq_budget (h : Stops call budget n) (hfails : Fails call (budget + 1)) : n = budget := by
  obtain ⟨e, he⟩ := hfails n (Nat.lt_succ_of_le h.within)
  exact h.eq_of_error he

theorem congr (h : Stops call budget n) (hsame : ∀ run ≤ n, call' run = call run) :
    Stops call' budget n where
  within := h.within
  failed := by
    intro run hrun
    rw [hsame run (Nat.le_of_lt hrun)]
    exact h.failed run hrun
  last := by
    intro hn
    rw [hsame n (Nat.le_refl n)]
    exact h.last hn

end Stops

/-! ## Pauses -/

/-- The milliseconds of the pauses before the first retries, so many of them. -/
def pauses (base : UInt64) (n : Nat) : Nat :=
  ∑ retry ∈ Finset.range n, min (base.toNat * 2 ^ min retry 5) 30000

/-- None of the first pauses, so many of them, leaves a word of 64 bits. -/
def InWords (base : UInt64) (n : Nat) : Prop :=
  ∀ retry < n, base.toNat * 2 ^ min retry 5 < 2 ^ 64

theorem pauses_succ (base : UInt64) (n : Nat) :
    pauses base (n + 1) = pauses base n + min (base.toNat * 2 ^ min n 5) 30000 :=
  Finset.sum_range_succ _ n

theorem pause?_of_lt (h : base.toNat * 2 ^ min run 5 < 2 ^ 64) :
    pause? base run = some (min (base.toNat * 2 ^ min run 5) 30000) :=
  if_pos h

theorem pause?_of_le (h : 2 ^ 64 ≤ base.toNat * 2 ^ min run 5) : pause? base run = none :=
  if_neg (Nat.not_lt_of_le h)

theorem InWords.mono (h : InWords base n) (hmn : m ≤ n) : InWords base m := by
  intro retry hretry
  exact h retry (Nat.lt_of_lt_of_le hretry hmn)

theorem inWords_of_base (h : 32 * base.toNat < 2 ^ 64) (n : Nat) : InWords base n := by
  intro retry _
  have hpower : 2 ^ min retry 5 ≤ 2 ^ 5 := Nat.pow_le_pow_right (by decide) (Nat.min_le_right _ _)
  calc base.toNat * 2 ^ min retry 5
      ≤ base.toNat * 2 ^ 5 := Nat.mul_le_mul_left _ hpower
    _ = 32 * base.toNat := Nat.mul_comm _ _
    _ < 2 ^ 64 := h

/-- Where some pause leaves a word of 64 bits there is a first one that does. -/
theorem exists_first_of_not_inWords (h : ¬ InWords base n) :
    ∃ retry < n, InWords base retry ∧ 2 ^ 64 ≤ base.toNat * 2 ^ min retry 5 := by
  induction n with
  | zero => exact absurd (fun retry hretry => by omega) h
  | succ n ih =>
    by_cases hbefore : InWords base n
    · refine ⟨n, Nat.lt_succ_self n, hbefore, ?_⟩
      by_contra hlt
      apply h
      intro retry hretry
      rcases Nat.lt_succ_iff_lt_or_eq.mp hretry with hn | rfl
      · exact hbefore retry hn
      · exact Nat.lt_of_not_le hlt
    · obtain ⟨retry, hretry, hfirst⟩ := ih hbefore
      exact ⟨retry, Nat.lt_succ_of_lt hretry, hfirst⟩

/-! ## Runs -/

theorem ofRuns?_zero (base : UInt64) (call : Nat → Except ε α) (c : Count) :
    ofRuns? base call c 0 = some ⟨call c.runs, c.runs + 1, c.slept⟩ :=
  rfl

theorem ofRuns?_ok {c : Count} (ha : call c.runs = .ok a) (budget : Nat) :
    ofRuns? base call c budget = some ⟨.ok a, c.runs + 1, c.slept⟩ := by
  cases budget with
  | zero =>
    rw [ofRuns?_zero, ha]
  | succ budget =>
    simp only [ofRuns?, again?, StateT.run, bind, StateT.bind, counted, ha]
    rfl

/-- A run that fails, with some of the budget left, is followed by a pause and the next run. -/
theorem ofRuns?_error {c : Count} (he : call c.runs = .error e) (budget : Nat) :
    ofRuns? base call c (budget + 1) =
      (pause? base c.runs).bind fun pause =>
        ofRuns? base call ⟨c.runs + 1, c.slept + pause⟩ budget := by
  simp only [ofRuns?, again?, StateT.run, bind, StateT.bind, counted, he]
  cases pause? base c.runs <;> rfl

/-- After runs that failed a call is where it would be if it had started there, but for the pauses
so far. -/
theorem ofRuns?_fails (hfails : Fails call n) (hwords : InWords base n) (budget : Nat) :
    ofRuns? base call ⟨0, 0⟩ (n + budget) = ofRuns? base call ⟨n, pauses base n⟩ budget := by
  induction n generalizing budget with
  | zero => simp [pauses]
  | succ n ih =>
    have hbefore := ih (hfails.mono (Nat.le_succ n)) (hwords.mono (Nat.le_succ n)) (budget + 1)
    obtain ⟨e, he⟩ := hfails n (Nat.lt_succ_self n)
    rw [Nat.add_right_comm, Nat.add_assoc, hbefore, ofRuns?_error he,
      pause?_of_lt (hwords n (Nat.lt_succ_self n)), pauses_succ]
    rfl

/-- What a call comes to that stops after some retries. -/
theorem run?_of_stops (h : Stops call retries.toNat n) (hwords : InWords base n) :
    run? retries base call = some ⟨call n, n + 1, pauses base n⟩ := by
  obtain ⟨budget, hbudget⟩ := Nat.exists_eq_add_of_le h.within
  unfold run?
  rw [hbudget, ofRuns?_fails h.failed hwords]
  cases budget with
  | zero => rfl
  | succ budget =>
    obtain ⟨a, ha⟩ := h.last (by omega)
    rw [ofRuns?_ok ha, ha]

/-- Nothing comes of a call just where the pause before one of its retries leaves a word of 64
bits. -/
theorem run?_eq_none_iff (h : Stops call retries.toNat n) :
    run? retries base call = none ↔ ¬ InWords base n := by
  constructor
  · intro hnone hwords
    rw [run?_of_stops h hwords] at hnone
    cases hnone
  · intro hlarge
    obtain ⟨retry, hretry, hwords, hge⟩ := exists_first_of_not_inWords hlarge
    obtain ⟨e, he⟩ := h.failed retry hretry
    have hlt : retry < retries.toNat := Nat.lt_of_lt_of_le hretry h.within
    obtain ⟨budget, hbudget⟩ := Nat.exists_eq_add_of_lt hlt
    unfold run?
    rw [hbudget, Nat.add_assoc, ofRuns?_fails (h.failed.mono (Nat.le_of_lt hretry)) hwords,
      ofRuns?_error he, pause?_of_le hge]
    rfl

/-! With a base of 2^59 milliseconds the sixth pause leaves a word before it is cut. -/

example : (run? 6 576460752303423488 fun _ => (.error () : Except Unit Unit)).isNone = true :=
  rfl

/-- A call runs once more than it fails before it succeeds, and once more than its budget at most.
It comes to its first success, or to the error of its last run if all fail that the budget allows.
The pauses are those before the retries that it makes, and no run after the last one matters. -/
theorem retries_respect_their_budget (retries : UInt32) (base : UInt64)
    (hbase : 32 * base.toNat < 2 ^ 64) (call : Nat → Except ε α) :
    ∃ t, run? retries base call = some t ∧
      (∀ k a, Fails call k → call k = .ok a →
        t.calls = min k retries.toNat + 1 ∧ (k ≤ retries.toNat → t.result = .ok a)) ∧
      (Fails call (retries.toNat + 1) →
        t.calls = retries.toNat + 1 ∧ ∃ e, call retries.toNat = .error e ∧ t.result = .error e) ∧
      t.slept = ∑ j ∈ Finset.range (t.calls - 1), min (base.toNat * 2 ^ min j 5) 30000 ∧
      ∀ call', (∀ i < t.calls, call' i = call i) → run? retries base call' = some t := by
  obtain ⟨n, hn⟩ := exists_stops call retries.toNat
  refine ⟨_, run?_of_stops hn (inWords_of_base hbase n), ?_, ?_, ?_, ?_⟩
  · intro k a hfails ha
    have hmin := hn.eq_min hfails ha
    refine ⟨by rw [hmin], fun hk => ?_⟩
    rw [Nat.min_eq_left hk] at hmin
    rw [hmin, ha]
  · intro hfails
    have hfull := hn.eq_budget hfails
    obtain ⟨e, he⟩ := hfails retries.toNat (Nat.lt_succ_self _)
    exact ⟨by rw [hfull], e, he, by rw [hfull, he]⟩
  · rfl
  · intro call' hsame
    have hlast : call' n = call n := hsame n (Nat.lt_succ_self n)
    have hstops := hn.congr fun run hrun => hsame run (Nat.lt_succ_of_le hrun)
    rw [run?_of_stops hstops (inWords_of_base hbase n), hlast]

/-! A node that is busy for seven runs, with a budget that lasts and with one that does not. -/

/-- The replies of a node that is busy at first and then tells how often it was asked before. -/
def busyFor (n run : Nat) : Except String Nat :=
  if run < n then .error "rate_limited" else .ok run

theorem fails_busyFor (h : m ≤ n) : Fails (busyFor n) m := by
  intro run hrun
  have hbusy : run < n := Nat.lt_of_lt_of_le hrun h
  exact ⟨"rate_limited", if_pos hbusy⟩

theorem busy_node_is_asked_again :
    (32 * (1000 : UInt64).toNat < 2 ^ 64 ∧ Fails (busyFor 7) 7 ∧ busyFor 7 7 = .ok 7 ∧
      ∃ t, run? 8 1000 (busyFor 7) = some t ∧
        t.calls = 8 ∧ t.result = .ok 7 ∧ t.slept = 91000) ∧
    (32 * (500 : UInt64).toNat < 2 ^ 64 ∧ Fails (busyFor 7) 6 ∧
      ∃ t, run? 5 500 (busyFor 7) = some t ∧
        t.calls = 6 ∧ t.result = .error "rate_limited" ∧ t.slept = 15500) := by
  refine ⟨⟨by decide, fails_busyFor (by decide), rfl, ?_⟩,
    by decide, fails_busyFor (by decide), ?_⟩
  · obtain ⟨t, hrun, hsuccess, _, hslept, _⟩ :=
      retries_respect_their_budget 8 1000 (by decide) (busyFor 7)
    obtain ⟨hcalls, hresult⟩ := hsuccess 7 7 (fails_busyFor (by decide)) rfl
    have hcount : t.calls = 8 := hcalls
    rw [hcount] at hslept
    exact ⟨t, hrun, hcount, hresult (by decide), hslept⟩
  · obtain ⟨t, hrun, _, hfailure, hslept, _⟩ :=
      retries_respect_their_budget 5 500 (by decide) (busyFor 7)
    obtain ⟨hcalls, e, he, hresult⟩ := hfailure (fails_busyFor (by decide))
    have hcount : t.calls = 6 := hcalls
    rw [hcount] at hslept
    cases he
    exact ⟨t, hrun, hcount, hresult, hslept⟩

end Retried

end OfferDesk
