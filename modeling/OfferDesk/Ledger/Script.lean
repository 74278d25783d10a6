-- Scripts: a ledger whose replies are written down beforehand, and the rehearsal of an inquiry
-- against it.
import OfferDesk.Ledger.Inquiry
import OfferDesk.Table

namespace OfferDesk

/-! ## What is asked for -/

namespace Request

/-- What a request is about, behind its method. -/
def subject? : Request → Option String
  | accountInfo account => some account
  | accountObjects account => some account
  | bookOffers gets pays _ => some (gets.symbol ++ ">" ++ pays.symbol)
  | transaction hash => some hash
  | submit blob => some blob
  | fee | currentLedger | validatedLedger => none

/-- The name of a request in a script. -/
def key (r : Request) : String :=
  match r.subject? with
  | some subject => r.method ++ ":" ++ subject
  | none => r.method

end Request

/-! ## Scripts -/

/-- What a script has in store for a request. -/
inductive Cue where
  | reply (r : Reply)
  /-- There is never a reply. -/
  | silence
  /-- The reply is held back for a while. -/
  | held (cue : Cue)
deriving Inhabited

/-- The cues for requests, under their full names or under their methods. Each is used once, but
the last of its list stays. -/
structure Script where
  cues : Table String (List Cue)

namespace Script

/-- The name under which a script has cues for a request; the full name comes first. -/
def nameFor? (s : Script) (r : Request) : Option String :=
  [r.key, r.method].find? fun name => (s.cues.find? name).isSome

/-- The reply to a request that a script has nothing for. -/
def unscripted (r : Request) : Cue := .reply (.error ("unscripted " ++ r.key))

/-- The cue for a request, and the script after it. -/
def take (s : Script) (r : Request) : Cue × Script :=
  match s.nameFor? r with
  | none => (unscripted r, s)
  | some name =>
    match s.cues.find? name with
    | some [cue] => (cue, s)
    | some (cue :: rest) => (cue, ⟨s.cues.put name rest⟩)
    | _ => (unscripted r, s)

/-- Puts cues in, in place of those under the same names. -/
def including (s : Script) (cues : List (String × List Cue)) : Script :=
  ⟨cues.foldl (fun t e => t.put e.1 e.2) s.cues⟩

end Script

/-! ## Rehearsals -/

/-- A script as far as it has been played: the names of the requests, and the milliseconds that
went by in pauses. -/
structure Rehearsal where
  script : Script
  calls : List String := []
  slept : Nat := 0

/-- How a rehearsal ends: with a result, where an amount left its range, or where a reply never
came. -/
inductive Ending (α : Type) where
  | finished (result : α)
  | halted
  | dropped
deriving Inhabited

namespace Rehearsal

/-- How many requests are answered. -/
def callLimit : Nat := 64

/-- Plays the cue for a request, after a pause. -/
def ask (r : Rehearsal) (pause : Nat) (request : Request) : Cue × Rehearsal :=
  let r := { r with slept := r.slept + pause }
  if callLimit ≤ r.calls.length then (.reply (.error "call limit"), r)
  else
    let (cue, script) := r.script.take request
    (cue, { r with script := script, calls := r.calls ++ [request.key] })

/-- The reply of a cue where nothing holds it back. -/
def promptReply? : Cue → Option Reply
  | .reply r => some r
  | .silence => none
  | .held cue => promptReply? cue

/-- Plays an inquiry to its end, for as long as the patience lasts. -/
def play {σ α : Type} (resume : σ → Reply → Progress σ α) (r : Rehearsal) :
    (patience : Nat) → Progress σ α → Rehearsal × Ending α
  | _, .done a => (r, .finished a)
  | _, .halted => (r, .halted)
  | 0, .ask .. => (r, .dropped)
  | patience + 1, .ask pause request s =>
    let (cue, r) := r.ask pause request
    match promptReply? cue with
    | some reply => play resume r patience (resume s reply)
    | none => (r, .dropped)

end Rehearsal

end OfferDesk
