-- A desk with any amount of work under way at once, while its streams bring messages and its orders
-- are also handled directly. An order that has ended stays as it is, as long as nothing else is
-- tracked in its place.
import OfferDesk.Proofs.Cancelling
import OfferDesk.Proofs.DeskTurns

namespace OfferDesk

/-! ## Busy desks -/

/-- A desk with its tasks, under way or over, each under its number. -/
structure BusyDesk where
  state : DeskState
  tasks : Table Nat (Progress Task JobResult)

/-- What happens at a busy desk. A job starts, a task gets a reply or is dropped, the book stream
brings a message, time passes, or the orders are handled directly. -/
inductive BusyEvent where
  | start (n : Nat) (job : Job)
  | reply (n : Nat) (r : Reply)
  | drop (n : Nat)
  | bookMessage (event : Json)
  | clock (now : Nat)
  | move (clientId : String) (state : OrderState)
  | takeIn (ctx : Trader) (o : Outcome)
  | assign (clientId : String) (id : ExchangeId)
  | track (o : Order)
  | untrack (clientId : String)

namespace BusyDesk

/-- A busy desk after a turn of one task. -/
def turn (g : BusyDesk) (n : Nat) (t : Turn Task JobResult) : BusyDesk :=
  ⟨t.1, g.tasks.put n t.2⟩

/-- The task that waits for a reply under a number. -/
def waiting? (g : BusyDesk) (n : Nat) : Option Task :=
  match g.tasks.find? n with
  | some (.ask _ _ w) => some w
  | _ => none

/-- The busy desk after an event. A reply that nobody waits for does nothing, and neither does the
drop of a task that does not wait. There is no result where a job starts under a number that is
taken, and where an amount leaves the range of decimals. -/
def step? (d : Desk) (g : BusyDesk) : BusyEvent → Option BusyDesk
  | .start n job =>
    match g.tasks.find? n with
    | none => some (g.turn n (job.start d g.state))
    | some _ => none
  | .reply n r =>
    match g.waiting? n with
    | some w => some (g.turn n (w.resume d g.state r))
    | none => some g
  | .drop n =>
    match g.waiting? n with
    | some w => some ⟨w.drop g.state, g.tasks.erase n⟩
    | none => some g
  | .bookMessage event => (g.state.bookEvent? event).map fun s => { g with state := s }
  | .clock now => some { g with state := { g.state with now := now } }
  | .move clientId state => some { g with state := g.state.move clientId state }
  | .takeIn ctx o =>
    (ctx.process? o g.state.register).map fun (register, events) =>
      { g with state := { g.state with register := register }.report events }
  | .assign clientId id =>
    match g.state.register.assign clientId id with
    | .ok register => some { g with state := { g.state with register := register } }
    | .error _ => some g
  | .track o => some { g with state := g.state.track o }
  | .untrack clientId => some { g with state := g.state.untrack clientId }

/-- The busy desk after one event after another. -/
def run? (d : Desk) (g : BusyDesk) (events : List BusyEvent) : Option BusyDesk :=
  events.foldlM (step? d) g

theorem run?_cons {d : Desk} {event : BusyEvent} {events : List BusyEvent} (g : BusyDesk) :
    run? d g (event :: events) = (step? d g event).bind (run? d · events) :=
  List.foldlM_cons

end BusyDesk

/-! ## What an event does to the orders -/

namespace BusyEvent

variable {d : Desk} {g g' : BusyDesk} {event : BusyEvent} {o : Order}

/-- The order that an event puts in place of any other under its client id. -/
def tracked? (s : DeskState) : BusyEvent → Option Order
  | start _ job => job.tracked? s
  | track o => some o
  | _ => none

/-- The client id whose order an event takes away. -/
def untracked? : BusyEvent → Option String
  | untrack clientId => some clientId
  | _ => none

/-- The exchange id that an event assigns. -/
def assigned? (d : Desk) (g : BusyDesk) : BusyEvent → Option (String × ExchangeId)
  | reply n r => (g.waiting? n).bind fun w => Task.assigned? (w.resume d g.state r).2
  | assign clientId id =>
    match g.state.register.assign clientId id with
    | .ok _ => some (clientId, id)
    | .error _ => none
  | _ => none

/-- An order that is put in place may be moved at once. -/
theorem sets_of_tracked (h : g.step? d event = some g') (ho : event.tracked? g.state = some o) :
    ∃ state, OrderRegister.Sets o.clientId (some { o with state := state }) g.state.register
        g'.state.register ∧
      (state.isTerminal = o.state.isTerminal ∨ o.sequence? = none) := by
  cases event with
  | start n job =>
    simp only [BusyDesk.step?] at h
    split at h
    · cases h
      exact Job.sets_start ho
    · cases h
  | track a =>
    cases ho
    cases h
    exact ⟨o.state, g.state.register.sets_track o, Or.inl rfl⟩
  | _ => cases ho

/-- An event that puts no order in place, and takes none away, lets the orders continue or assigns
an exchange id. -/
theorem turns_of_untracked (h : g.step? d event = some g')
    (htracked : event.tracked? g.state = none) (huntracked : event.untracked? = none) :
    g.state.register.Turns (event.assigned? d g) g'.state.register := by
  cases event with
  | start n job =>
    simp only [BusyDesk.step?] at h
    split at h
    · cases h
      exact Job.continues_start htracked
    · cases h
  | reply n r =>
    simp only [BusyDesk.step?] at h
    simp only [assigned?]
    cases hw : g.waiting? n with
    | some w =>
      rw [hw] at h
      cases h
      exact Task.works_resume d g.state w r
    | none =>
      rw [hw] at h
      cases h
      exact .refl g.state.register
  | drop n =>
    simp only [BusyDesk.step?] at h
    split at h
    · rename_i w _
      cases h
      exact Task.continues_drop g.state w
    · cases h
      exact .refl _
  | bookMessage message =>
    obtain ⟨s, hs, rfl⟩ := Option.map_eq_some_iff.mp h
    exact .of_eq (DeskState.register_bookEvent hs)
  | clock now =>
    cases h
    exact .refl _
  | move clientId state =>
    cases h
    exact g.state.continues_move clientId state
  | takeIn ctx t =>
    obtain ⟨⟨r, es⟩, hr, rfl⟩ := Option.map_eq_some_iff.mp h
    exact OrderRegister.continues_process hr
  | assign clientId id =>
    simp only [BusyDesk.step?] at h
    simp only [assigned?]
    cases hr : g.state.register.assign clientId id with
    | ok r =>
      rw [hr] at h
      cases h
      exact hr
    | error e =>
      rw [hr] at h
      cases h
      exact .refl g.state.register
  | track a => cases htracked
  | untrack clientId => cases huntracked

theorem sets_of_untracked {clientId : String} (h : g.step? d event = some g')
    (hc : event.untracked? = some clientId) :
    OrderRegister.Sets clientId none g.state.register g'.state.register := by
  cases event with
  | untrack x =>
    cases hc
    cases h
    exact g.state.register.sets_untrack clientId
  | _ => cases hc

end BusyEvent

/-! ## Orders that have ended -/

namespace OrderRegister

variable {r r' : OrderRegister} {a : Order} {clientId : String}

/-- Work leaves an order that has ended as it is, up to its exchange id. -/
theorem Turns.ended {assigned : Option (String × ExchangeId)} (h : r.Turns assigned r')
    (ha : r.find? clientId = some a) (hended : a.isLive = false) :
    ∃ id, r'.find? clientId = some { a with exchangeId := id } := by
  cases assigned with
  | none =>
    obtain ⟨a', ha', hadvances⟩ := Advances.forward (Continues.advances h) ha
    exact ⟨a.exchangeId, by rw [ha', hadvances.ended hended]⟩
  | some x =>
    obtain ⟨o, ho, hsets⟩ := sets_assign h
    rw [hsets]
    split
    · rename_i hid
      obtain rfl : o = a := Option.some.inj (ho.symm.trans (hid ▸ ha))
      exact ⟨some x.2.text, rfl⟩
    · exact ⟨a.exchangeId, ha⟩

theorem Sets.find?_of_ne {x : String} {w : Option Order} (h : Sets x w r r') (hne : x ≠ clientId) :
    r'.find? clientId = r.find? clientId := by
  rw [h clientId, if_neg fun heq => hne heq.symm]

end OrderRegister

namespace BusyDesk

variable {d : Desk} {g g' : BusyDesk} {event : BusyEvent} {events : List BusyEvent}
  {clientId : String} {a : Order}

/-- Whether an event leaves what is tracked under a client id in place. -/
def Leaves (g : BusyDesk) (clientId : String) (event : BusyEvent) : Prop :=
  (event.tracked? g.state).map (·.clientId) ≠ some clientId ∧
    event.untracked? ≠ some clientId

instance : Decidable (g.Leaves clientId event) :=
  inferInstanceAs (Decidable (_ ∧ _))

/-- Whether what is tracked under a client id is left in place all through a run. -/
def StaysInPlace (d : Desk) (clientId : String) : BusyDesk → List BusyEvent → Prop
  | _, [] => True
  | g, event :: events => g.Leaves clientId event ∧
    ∀ g₁ ∈ step? d g event, StaysInPlace d clientId g₁ events

instance decidableStaysInPlace (d : Desk) (clientId : String) :
    ∀ g events, Decidable (StaysInPlace d clientId g events)
  | _, [] => .isTrue trivial
  | g, event :: events =>
    have : ∀ g₁, Decidable (StaysInPlace d clientId g₁ events) := fun g₁ =>
      decidableStaysInPlace d clientId g₁ events
    inferInstanceAs (Decidable (g.Leaves clientId event ∧
      ∀ g₁ ∈ step? d g event, StaysInPlace d clientId g₁ events))

theorem ended_step (h : step? d g event = some g') (hleaves : g.Leaves clientId event)
    (ha : g.state.order? clientId = some a) (hended : a.isLive = false) :
    ∃ id, g'.state.order? clientId = some { a with exchangeId := id } := by
  cases htracked : event.tracked? g.state with
  | some o =>
    obtain ⟨state, hsets, _⟩ := BusyEvent.sets_of_tracked h htracked
    have hne : o.clientId ≠ clientId := fun hid => hleaves.1 (by rw [htracked, ← hid]; rfl)
    exact ⟨a.exchangeId, (hsets.find?_of_ne hne).trans ha⟩
  | none =>
    cases huntracked : event.untracked? with
    | some x =>
      have hne : x ≠ clientId := fun hid => hleaves.2 (by rw [huntracked, hid])
      exact ⟨a.exchangeId, ((BusyEvent.sets_of_untracked h huntracked).find?_of_ne hne).trans ha⟩
    | none => exact (BusyEvent.turns_of_untracked h htracked huntracked).ended ha hended

/-- An order that is filled, canceled or failed stays as it is, whatever work goes on at the desk,
whatever its streams bring and however its orders are handled. Only its exchange id can be assigned
anew, and only another order that is tracked under its client id, or the end of its tracking, takes
its place. -/
theorem ended_orders_stay (ha : g.state.order? clientId = some a) (hended : a.isLive = false)
    (hplace : StaysInPlace d clientId g events) (hrun : run? d g events = some g') :
    ∃ id, g'.state.order? clientId = some { a with exchangeId := id } := by
  induction events generalizing g a with
  | nil =>
    cases hrun
    exact ⟨a.exchangeId, ha⟩
  | cons event events ih =>
    rw [run?_cons] at hrun
    obtain ⟨g₁, hstep, hrest⟩ := Option.bind_eq_some_iff.mp hrun
    obtain ⟨id, ha₁⟩ := ended_step hstep hplace.1 ha hended
    obtain ⟨id', ha'⟩ := ih ha₁ hended (hplace.2 g₁ hstep) hrest
    exact ⟨id', ha'⟩

/-! A placed order is canceled. Then a fill of it comes in, two cancels of it start, one of them is
dropped and the other fails, a placement under another client id starts, and it is moved. -/

def canceledDesk : BusyDesk where
  state := Cancelling.restingDesk.move "1-1" .canceled
  tasks := .empty

def afterTheEnd : List BusyEvent :=
  [.takeIn RegisterStep.soloTrader RegisterStep.partialFill,
    .start 0 (.cancel "1-1" RegisterStep.restingOrder),
    .start 1 (.cancel "1-1" RegisterStep.restingOrder), .drop 0,
    .reply 1 (.error "connection reset by peer"), .start 2 (.place Placing.limitOrder),
    .move "1-1" .opened, .assign "1-1" ⟨9, 30⟩]

theorem canceled_order_after_the_end : ∃ g' id,
    run? Cancelling.signingDesk canceledDesk afterTheEnd = some g' ∧
    g'.state.order? "1-1" = some
      { RegisterStep.restingOrder with state := .canceled, exchangeId := id } := by
  have ha : canceledDesk.state.order? "1-1" =
      some { RegisterStep.restingOrder with state := .canceled } := by decide +kernel
  have hplace : StaysInPlace Cancelling.signingDesk "1-1" canceledDesk afterTheEnd := by
    decide +kernel
  obtain ⟨g', hrun⟩ : ∃ g', run? Cancelling.signingDesk canceledDesk afterTheEnd = some g' :=
    ⟨_, rfl⟩
  obtain ⟨id, hid⟩ := ended_orders_stay ha rfl hplace hrun
  exact ⟨g', id, hrun, hid⟩

end BusyDesk

end OfferDesk
