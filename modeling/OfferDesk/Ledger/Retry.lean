-- Trying again: a call that failed is repeated after a pause, which doubles from one try to the
-- next, until it succeeds or the tries are used up.
import OfferDesk.Decimal.Power

namespace OfferDesk

/-- What came of a call that was tried again: its last result, the number of runs, and the
milliseconds of all pauses. -/
structure Retried (ε α : Type) where
  result : Except ε α
  calls : Nat
  slept : Nat
deriving Inhabited

namespace Retried

/-- The longest pause, in milliseconds. -/
def longestPause : Nat := 30000

/-- How often a pause is doubled at most. -/
def doublings : Nat := 5

/-- The pause after a run, counted from zero. There is none where it leaves a word of 64 bits
before it is cut to the longest one. -/
def pause? (base : UInt64) (run : Nat) : Option Nat :=
  let pause := base.toNat * pow2 (min run doublings)
  if pause < UInt64.size then some (min pause longestPause) else none

/-- Runs a call, and runs it again after a pause as long as it fails, so many times at most. It
gives the last result, or none where a pause leaves a word of 64 bits. -/
def again? {m : Type → Type} [Monad m] {ε α : Type} (base : UInt64) (call : m (Except ε α))
    (wait : Nat → m Unit) (run : Nat) : (budget : Nat) → m (Option (Except ε α))
  | 0 => return some (← call)
  | budget + 1 => do
    match ← call with
    | .ok a => return some (.ok a)
    | .error _ =>
      match pause? base run with
      | none => return none
      | some milliseconds =>
        wait milliseconds
        again? base call wait (run + 1) budget

/-- What is counted while a call is tried again: its runs, and the milliseconds of the pauses. -/
structure Count where
  runs : Nat
  slept : Nat
deriving Inhabited

/-- A call that gets the number of its run, with the run counted. -/
def counted {ε α : Type} (call : Nat → Except ε α) : StateM Count (Except ε α) :=
  fun c => (call c.runs, { c with runs := c.runs + 1 })

/-- A pause that is only counted. -/
def sleep (milliseconds : Nat) : StateM Count Unit :=
  fun c => ((), { c with slept := c.slept + milliseconds })

/-- Repeats a call that gets the number of its run, from a count on. -/
def ofRuns? {ε α : Type} (base : UInt64) (call : Nat → Except ε α) (c : Count) (budget : Nat) :
    Option (Retried ε α) :=
  let (result, c) := (again? base (counted call) sleep c.runs budget).run c
  result.map (⟨·, c.runs, c.slept⟩)

/-- Runs a call that gets the number of its run, from zero up, and repeats it so many times at most.
There is no result where a pause leaves a word of 64 bits. -/
def run? {ε α : Type} (retries : UInt32) (base : UInt64) (call : Nat → Except ε α) :
    Option (Retried ε α) :=
  ofRuns? base call ⟨0, 0⟩ retries.toNat

end Retried

end OfferDesk
