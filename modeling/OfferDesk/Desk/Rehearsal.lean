-- Rehearsals at a desk: jobs are played against a script, and messages of the account stream come
-- in while a job waits.
import OfferDesk.Desk.Task
import OfferDesk.Ledger.Script

namespace OfferDesk

structure DeskRehearsal where
  state : DeskState
  rehearsal : Rehearsal

namespace DeskRehearsal

def abandon (g : DeskRehearsal) (t : Task) : DeskRehearsal × Ending JobResult :=
  ({ g with state := t.drop g.state }, .dropped)

/-- Plays a turn to its end. The messages of the interlude come in at the first reply that does
not come at once, and after the end if there is none; a reply that is held back comes after them.
Without an interlude what is held back stays so. -/
def play (d : Desk) : (patience : Nat) → (interlude : Option (List Json)) → Rehearsal →
    Turn Task JobResult → DeskRehearsal × Ending JobResult
  | 0, _, r, (s, _) => (⟨s, r⟩, .dropped)
  | _ + 1, _, r, (s, .halted) => (⟨s, r⟩, .halted)
  | _ + 1, none, r, (s, .done result) => (⟨s, r⟩, .finished result)
  | patience + 1, some events, r, (s, .done result) =>
    match play d patience none r (Job.start d s (.takeIn events)) with
    | (g, .finished _) => (g, .finished result)
    | (g, ending) => (g, ending)
  | patience + 1, interlude, r, (s, .ask pause request t) =>
    match r.ask pause request with
    | (.reply reply, r) => play d patience interlude r (t.resume d s reply)
    | (cue, r) =>
      match interlude with
      | none => abandon ⟨s, r⟩ t
      | some events =>
        match play d patience none r (Job.start d s (.takeIn events)) with
        | (g, .finished _) =>
          match Rehearsal.promptReply? cue with
          | some reply => play d patience (some []) g.rehearsal (t.resume d g.state reply)
          | none => abandon g t
        | (g, .halted) => (g, .halted)
        | (g, .dropped) => abandon g t

/-- Requests that a job may make after the last one that is answered. -/
def patienceFor (d : Desk) (interlude : List Json) : Job → Nat
  | .takeIn events => Rehearsal.callLimit + 3 * (events.length + interlude.length) + 8
  | _ => Rehearsal.callLimit + d.config.markets.keys.length * 2 + 3 * interlude.length + 8

/-- Plays a job with the messages that come in meanwhile. The state of the desk and the requests made
until then stay with the ending, also where a turn halts. -/
def perform (g : DeskRehearsal) (d : Desk) (job : Job) (interlude : List Json) :
    DeskRehearsal × Ending JobResult :=
  play d (patienceFor d interlude job) (some interlude) g.rehearsal (job.start d g.state)

end DeskRehearsal

end OfferDesk
