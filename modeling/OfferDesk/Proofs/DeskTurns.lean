-- What one turn of any work at a desk does to the orders. Work may put one order in place as it
-- starts. From then on the orders only go on, except that a placement gives its order an exchange
-- id in the turn in which it submits.
import OfferDesk.Desk.Task
import OfferDesk.Proofs.PlacingTurns

namespace OfferDesk

/-! ## How orders continue -/

namespace OrderRegister

variable {r r' r'' : OrderRegister} {o : Order} {clientId : String} {state : OrderState}

/-- The orders of the second register are those of the first, each gone on with its fills kept. -/
structure Continues (r r' : OrderRegister) : Prop where
  advances : r.Advances r'
  keeps : ∀ x a a', r.find? x = some a → r'.find? x = some a' → a.KeepsFills a'

namespace Continues

theorem refl (r : OrderRegister) : r.Continues r where
  advances := .refl r
  keeps x a a' ha ha' := by
    obtain rfl := Option.some.inj (ha.symm.trans ha')
    exact .refl a

theorem trans (h : r.Continues r') (h' : r'.Continues r'') : r.Continues r'' where
  advances := h.advances.trans h'.advances
  keeps x a a'' ha ha'' := by
    obtain ⟨a', ha', _⟩ := h.advances.forward ha
    exact (h.keeps x a a' ha ha').trans (h'.keeps x a' a'' ha' ha'')

theorem of_eq (h : r' = r) : r.Continues r' := h ▸ .refl r

end Continues

theorem continues_move (r : OrderRegister) (clientId : String) (state : OrderState) :
    r.Continues (r.move clientId state) where
  advances := advances_move r clientId state
  keeps x a a' ha ha' := by
    rw [r.sets_move clientId state x] at ha'
    split at ha'
    · rename_i hx
      rw [← hx, ha, Option.map_some] at ha'
      obtain rfl := Option.some.inj ha'
      unfold Order.movedTo
      split
      · exact .state a state
      · exact .refl a
    · obtain rfl := Option.some.inj (ha.symm.trans ha')
      exact .refl a

theorem continues_process {ctx : Trader} {t : Outcome} {events : List OrderEvent}
    (h : ctx.process? t r = some (r', events)) : r.Continues r' where
  advances := (Trader.effect_process h).advances
  keeps x a a' ha ha' := by
    obtain ⟨b, hb, hreached⟩ := Trader.find?_of_process h ha
    obtain rfl := Option.some.inj (hb.symm.trans ha')
    rcases hreached with rfl | hreached
    · exact .refl _
    · exact hreached.keeps

/-- What work does to a register in one turn: the orders continue, or one of them gets the exchange
id that is assigned. -/
def Turns (assigned : Option (String × ExchangeId)) (r r' : OrderRegister) : Prop :=
  match assigned with
  | none => r.Continues r'
  | some (clientId, id) => r.assign clientId id = .ok r'

end OrderRegister

namespace DeskState

variable {d : Desk} {s s' : DeskState} {t : Outcome}

theorem continues_move (s : DeskState) (clientId : String) (state : OrderState) :
    s.register.Continues (s.move clientId state).register := by
  rw [register_move]
  exact s.register.continues_move clientId state

theorem continues_applyFills (h : s.applyFills? d t = some s') :
    s.register.Continues s'.register := by
  obtain ⟨rules, events, hp⟩ := process?_of_applyFills h
  exact OrderRegister.continues_process hp

theorem continues_userOutcome (h : s.userOutcome? d t = some s') :
    s.register.Continues s'.register := by
  obtain ⟨rules, events, hp⟩ := process?_of_userOutcome h
  exact OrderRegister.continues_process hp

theorem register_bookEvent {event : Json} (h : s.bookEvent? event = some s') :
    s'.register = s.register := by
  unfold bookEvent? at h
  split at h
  · exact register_patchBooks h
  · cases h
    rfl

end DeskState

/-! ## Placements -/

namespace Placing

variable {d : Desk} {s : DeskState} {o : PlaceOrder} {market : Market}

/-- The exchange id that a placement has just assigned to its order. It waits for the answer to its
submission then. -/
def assigned? : Progress Placing Result → Option (String × ExchangeId)
  | .ask _ _ ⟨o, .submitting id _⟩ => some (o.clientId, id)
  | _ => none

/-- A turn of a placement does to a register what it says it assigns. -/
def Works (r : OrderRegister) (t : Turn Placing Result) : Prop :=
  r.Turns (assigned? t.2) t.1.register

theorem works_fail (s : DeskState) (o : PlaceOrder) (id : Option ExchangeId) (reason : Failure) :
    Works s.register (fail s o id reason) :=
  s.continues_move o.clientId .failed

theorem works_submit (s : DeskState) (o : PlaceOrder) (signed : SignedTransaction) :
    Works s.register (submit o s signed) := by
  unfold submit
  split
  · dsimp only
    split
    · exact s.continues_move o.clientId .failed
    · rename_i hassign
      exact hassign
  · exact works_fail s o none _

theorem works_filled (d : Desk) (o : PlaceOrder) (s : DeskState) (result : Autofill.Result) :
    Works s.register (filled d o s result) := by
  cases result with
  | error e => exact works_fail s o none _
  | ok t =>
    simp only [filled, DeskState.sign]
    cases d.signer.sign t with
    | error text => exact works_fail s o none _
    | ok signed => exact works_submit { s with signed := s.signed ++ [t] } o signed

theorem works_fill (d : Desk) (o : PlaceOrder) (s : DeskState)
    (p : Progress Autofill Autofill.Result) : Works s.register (fill d o s p) := by
  cases p with
  | ask pause request f => exact .refl s.register
  | done result => exact works_filled d o s result
  | halted => exact .refl s.register

/-- What a placement comes to before it asks for a sequence. Its order stays as it is or fails, and
gets no exchange id. -/
def Opens (r : OrderRegister) (clientId : String) (t : Turn Placing Result) : Prop :=
  (t.1.register = r ∨ t.1.register = r.move clientId .failed) ∧ assigned? t.2 = none

theorem Opens.works {r : OrderRegister} {clientId : String} {t : Turn Placing Result}
    (h : Opens r clientId t) : Works r t := by
  obtain ⟨hregister, hassigned⟩ := h
  unfold Works
  rw [hassigned]
  rcases hregister with hregister | hregister
  · exact .of_eq hregister
  · rw [hregister]
    exact r.continues_move clientId .failed

theorem opens_fail (s : DeskState) (o : PlaceOrder) (id : Option ExchangeId) (reason : Failure) :
    Opens s.register o.clientId (fail s o id reason) :=
  ⟨Or.inr (DeskState.register_move _ _ _), rfl⟩

theorem opens_build (d : Desk) (o : PlaceOrder) (market : Market) (s : DeskState)
    (price : Decimal) : Opens s.register o.clientId (build d o market s price) := by
  unfold build
  dsimp only
  split
  · exact ⟨Or.inl rfl, rfl⟩
  · exact opens_fail s o none _
  · exact ⟨Or.inl rfl, rfl⟩

theorem opens_price {t : Turn BookView BookView.Result} (h : BookView.Looks s t) :
    Opens s.register o.clientId (price d o market t) := by
  obtain ⟨s', p⟩ := t
  have hregister : s'.register = s.register := h.1.register
  rw [← hregister]
  cases p with
  | ask pause request v => exact ⟨Or.inl rfl, rfl⟩
  | halted => exact ⟨Or.inl rfl, rfl⟩
  | done result =>
    cases result with
    | error e => exact opens_fail s' o none _
    | ok book =>
      simp only [price, Turn.andThen, priced]
      split
      · exact opens_build d o market s' _
      · exact opens_fail s' o none _

theorem opens_start (d : Desk) (s : DeskState) (o : PlaceOrder) :
    Opens (s.register.track o.toOrder) o.clientId (start d s o) := by
  unfold start
  dsimp only
  split
  · exact opens_fail (s.track o.toOrder) o none _
  · split
    · exact opens_build d o _ (s.track o.toOrder) _
    · split
      · exact opens_price (BookView.looks_start d (s.track o.toOrder) _)
      · exact opens_fail (s.track o.toOrder) o none _

theorem works_watch (d : Desk) (o : PlaceOrder) (id : ExchangeId) (s : DeskState)
    (p : Progress Watch Finality) : Works s.register (watch d o id s p) := by
  cases p with
  | ask pause request w => exact .refl s.register
  | halted => exact .refl s.register
  | done v =>
    simp only [watch, Turn.andThen, finish]
    split
    · exact works_fail s o (some id) _
    · split
      · exact .refl s.register
      · rename_i s₁ hfills
        have hfilled := DeskState.continues_applyFills hfills
        unfold Works
        dsimp only
        split
        · exact hfilled.trans (s₁.continues_move o.clientId .opened)
        · exact hfilled

theorem works_resume (d : Desk) (s : DeskState) (w : Placing) (reply : Reply) :
    Works s.register (w.resume d s reply) := by
  unfold resume
  split
  · exact (opens_price (BookView.looks_resume d s _ reply)).works
  · exact works_fill d w.order s _
  · exact works_watch d w.order _ s _
  · exact works_watch d w.order _ s _

end Placing

/-! ## Cancels -/

namespace Cancelling

variable {d : Desk} {s : DeskState} {c : CancelOrder}

theorem continues_restore (s : DeskState) (c : CancelOrder) :
    s.register.Continues (restore s c).register := by
  unfold restore
  split
  · exact s.continues_move c.clientId c.previous
  · exact .refl _

theorem continues_fill (d : Desk) (c : CancelOrder) (s : DeskState)
    (p : Progress Autofill Autofill.Result) : s.register.Continues (fill d c s p).1.register := by
  cases p with
  | ask pause request f => exact .refl _
  | halted => exact .refl _
  | done result =>
    cases result with
    | error e => exact continues_restore s c
    | ok t =>
      simp only [fill, Turn.andThen, filled, DeskState.sign]
      cases d.signer.sign t with
      | error text => exact continues_restore s c
      | ok signed => exact .refl _

theorem continues_watch (d : Desk) (c : CancelOrder) (s : DeskState)
    (p : Progress Watch Finality) : s.register.Continues (watch d c s p).1.register := by
  cases p with
  | ask pause request w => exact .refl _
  | halted => exact .refl _
  | done v =>
    simp only [watch, Turn.andThen, finish]
    split
    · exact continues_restore s c
    · split
      · exact .refl _
      · rename_i s₁ hfills
        exact (DeskState.continues_applyFills hfills).trans
          (s₁.continues_move c.clientId .canceled)

theorem continues_resume (d : Desk) (s : DeskState) (w : Cancelling) (reply : Reply) :
    s.register.Continues (w.resume d s reply).1.register := by
  unfold resume
  split
  · exact continues_fill d w.cancel s _
  · exact continues_watch d w.cancel s _
  · exact continues_watch d w.cancel s _

/-- A cancel of an order that has a sequence marks what is tracked under the client id. -/
theorem register_start {clientId : String} {order : Order} {n : UInt32}
    (h : order.sequence? = some n) :
    (start d s clientId order).1.register =
      ((known s clientId order).register.move clientId .pendingCancel) := by
  unfold start
  rw [h]
  exact DeskState.register_move _ _ _

end Cancelling

/-! ## Reading anew -/

theorem BalanceUpdate.register_advance (s : DeskState)
    (p : Progress BalanceReading BalanceReading.Result) :
    (advance s p).1.register = s.register := by
  cases p with
  | ask pause request w => rfl
  | halted => rfl
  | done result => cases result <;> rfl

namespace Refreshing

variable {d : Desk} {s : DeskState}

theorem register_read (infos : List RuleInfo) (s : DeskState)
    (p : Progress BalanceReading BalanceReading.Result) :
    (read infos s p).1.register = s.register := by
  cases p with
  | ask pause request w => rfl
  | halted => rfl
  | done result => cases result <;> rfl

theorem register_survey (d : Desk) (s : DeskState) (p : Progress Survey Survey.Result) :
    (survey d s p).1.register = s.register := by
  cases p with
  | ask pause request w => rfl
  | halted => rfl
  | done rules =>
    exact register_read (Survey.sorted rules) s (BalanceReading.start d.account d.config.reserve)

theorem register_resume (d : Desk) (s : DeskState) (w : Refreshing) (reply : Reply) :
    (w.resume d s reply).1.register = s.register := by
  cases w with
  | surveying survey => exact register_survey d s _
  | reading infos reading => exact register_read infos s _

end Refreshing

namespace UserStream

/-- The messages up to the next one that has balances read, whatever comes of the balances. -/
theorem continues_start (d : Desk) (s : DeskState) (events : List Json) :
    s.register.Continues (start d s events).1.register := by
  induction events generalizing s with
  | nil => exact .refl _
  | cons event rest ih =>
    unfold start
    split
    · exact ih s
    · split
      · exact .refl _
      · rename_i s₁ hfills
        have hfilled := DeskState.continues_userOutcome hfills
        split
        · refine hfilled.trans ?_
          have hsame := BalanceUpdate.register_advance s₁
            (BalanceReading.start d.account d.config.reserve)
          unfold BalanceUpdate.start
          generalize BalanceUpdate.advance s₁ _ = t at hsame ⊢
          obtain ⟨s₂, p⟩ := t
          cases p with
          | ask pause request w => exact .of_eq hsame
          | halted => exact .of_eq hsame
          | done result => exact (OrderRegister.Continues.of_eq hsame).trans (ih s₂)
        · exact hfilled.trans (ih s₁)

theorem continues_resume (d : Desk) (s : DeskState) (u : UserStream) (reply : Reply) :
    s.register.Continues (u.resume d s reply).1.register := by
  have hsame := BalanceUpdate.register_advance s (u.update.reading.resume reply)
  unfold resume BalanceUpdate.resume
  generalize BalanceUpdate.advance s (u.update.reading.resume reply) = t at hsame ⊢
  obtain ⟨s₁, p⟩ := t
  cases p with
  | ask pause request w => exact .of_eq hsame
  | halted => exact .of_eq hsame
  | done result => exact (OrderRegister.Continues.of_eq hsame).trans (continues_start d s₁ u.rest)

end UserStream

/-! ## Tasks -/

namespace Task

variable {σ α : Type} {d : Desk} {s : DeskState}

/-- The exchange id that a task has just assigned to an order. -/
def assigned? : Progress Task JobResult → Option (String × ExchangeId)
  | .ask pause request (.placing w) => Placing.assigned? (.ask pause request w)
  | _ => none

/-- A turn of a task does to a register what it says it assigns. -/
def Works (r : OrderRegister) (t : Turn Task JobResult) : Prop :=
  r.Turns (assigned? t.2) t.1.register

theorem works_lift_placing {r : OrderRegister} {t : Turn Placing Placing.Result}
    (h : Placing.Works r t) : Works r (lift t .placing .placed) := by
  obtain ⟨s, p⟩ := t
  cases p <;> exact h

theorem state_lift (t : Turn σ α) (embed : σ → Task) (result : α → JobResult) :
    (lift t embed result).1 = t.1 := by
  obtain ⟨s, p⟩ := t
  cases p <;> rfl

/-- Work that is no placement assigns nothing. -/
theorem works_lift {r : OrderRegister} {t : Turn σ α} {embed : σ → Task}
    {result : α → JobResult}
    (hembed : ∀ pause request w, assigned? (.ask pause request (embed w)) = none)
    (h : r.Continues t.1.register) : Works r (lift t embed result) := by
  obtain ⟨s, p⟩ := t
  cases p with
  | ask pause request w =>
    unfold Works
    rw [show assigned? (lift (s, .ask pause request w) embed result).2 = none from hembed _ _ _]
    exact h
  | done a => exact h
  | halted => exact h

theorem works_resume (d : Desk) (s : DeskState) (t : Task) (reply : Reply) :
    Works s.register (t.resume d s reply) := by
  cases t with
  | placing w => exact works_lift_placing (Placing.works_resume d s w reply)
  | cancelling w =>
    exact works_lift (fun _ _ _ => rfl) (Cancelling.continues_resume d s w reply)
  | takingIn w => exact works_lift (fun _ _ _ => rfl) (UserStream.continues_resume d s w reply)
  | viewing w =>
    exact works_lift (fun _ _ _ => rfl) (.of_eq (BookView.looks_resume d s w reply).1.register)
  | readingBalances w =>
    exact works_lift (fun _ _ _ => rfl) (.of_eq (BalanceUpdate.register_advance s _))
  | surveying w => exact works_lift (fun _ _ _ => rfl) (.refl _)
  | refreshing w =>
    exact works_lift (fun _ _ _ => rfl) (.of_eq (Refreshing.register_resume d s w reply))

theorem continues_drop (s : DeskState) (t : Task) :
    s.register.Continues (t.drop s).register := by
  cases t with
  | cancelling w => exact Cancelling.continues_restore s w.cancel
  | _ => exact .refl _

end Task

namespace Job

variable {d : Desk} {s : DeskState} {o : Order}

/-- The order that a job puts in place as it starts. A placement tracks its order, whatever there is
under the client id; a cancel tracks the order that it is given if there is none under the id. -/
def tracked? (s : DeskState) : Job → Option Order
  | place o => some o.toOrder
  | cancel clientId order =>
    match order.sequence?, s.order? clientId with
    | some _, none => some order
    | _, _ => none
  | _ => none

theorem tracked?_cancel {clientId : String} {order : Order}
    (h : (cancel clientId order).tracked? s = some o) :
    order = o ∧ s.order? clientId = none ∧ ∃ n, o.sequence? = some n := by
  simp only [tracked?] at h
  split at h
  · rename_i hn hc
    cases h
    exact ⟨rfl, hc, _, hn⟩
  · cases h

/-- A job that puts no order in place lets the orders continue. -/
theorem continues_start {job : Job} (h : job.tracked? s = none) :
    s.register.Continues (job.start d s).1.register := by
  cases job with
  | place o => cases h
  | cancel clientId order =>
    rw [start, Task.state_lift]
    cases hn : order.sequence? with
    | none =>
      rw [Cancelling.start, hn]
      exact .refl _
    | some n =>
      have hknown : Cancelling.known s clientId order = s := by
        simp only [tracked?, hn] at h
        unfold Cancelling.known
        split
        · rfl
        · rename_i hc
          rw [hc] at h
          cases h
      rw [Cancelling.register_start hn, hknown]
      exact s.register.continues_move clientId .pendingCancel
  | takeIn events =>
    rw [start, Task.state_lift]
    exact UserStream.continues_start d s events
  | view pair =>
    simp only [start]
    split
    · rw [Task.state_lift]
      exact .of_eq (BookView.looks_start d s _).1.register
    · exact .refl _
  | readBalances =>
    rw [start, Task.state_lift]
    exact .of_eq (BalanceUpdate.register_advance s _)
  | surveyRules =>
    rw [start, Task.state_lift]
    exact .refl _
  | refresh =>
    rw [start, Task.state_lift]
    exact .of_eq (Refreshing.register_survey d s _)

/-- A job that puts an order in place changes nothing else, and can move that order at once. One
that has a sequence stays as live as it was. -/
theorem sets_start {job : Job} (h : job.tracked? s = some o) : ∃ state,
    OrderRegister.Sets o.clientId (some { o with state := state }) s.register
      (job.start d s).1.register ∧
    (state.isTerminal = o.state.isTerminal ∨ o.sequence? = none) := by
  have htracked := OrderRegister.sets_track s.register o
  cases job with
  | place p =>
    cases h
    rw [start, Task.state_lift]
    rcases (Placing.opens_start d s p).1 with hregister | hregister
    · exact ⟨.pendingCreate, hregister ▸ htracked, Or.inl rfl⟩
    · refine ⟨.failed, ?_, Or.inr rfl⟩
      have hmoved := (s.register.track p.toOrder).sets_move p.clientId .failed
      rw [show (s.register.track p.toOrder).find? p.clientId = _ from
        OrderRegister.find?_track_self s.register p.toOrder] at hmoved
      exact hregister ▸ htracked.trans hmoved
  | cancel clientId order =>
    obtain ⟨rfl, hfree, n, hn⟩ := tracked?_cancel h
    have hknown : Cancelling.known s clientId order = s.track order := by
      rw [Cancelling.known, hfree]
    rw [start, Task.state_lift, Cancelling.register_start hn, hknown]
    have hmoved := (s.register.track order).sets_move clientId .pendingCancel
    by_cases hid : clientId = order.clientId
    · subst hid
      rw [OrderRegister.find?_track_self, Option.map_some, Order.movedTo] at hmoved
      split at hmoved
      · rename_i hcan
        refine ⟨.pendingCancel, htracked.trans hmoved, Or.inl ?_⟩
        by_contra hended
        have hterminal : order.state.isTerminal = true := by
          simpa [OrderState.isTerminal] using hended
        rw [OrderState.canMoveTo_of_terminal hterminal] at hcan
        cases hcan
      · exact ⟨order.state, htracked.trans hmoved, Or.inl rfl⟩
    · refine ⟨order.state, fun x => ?_, Or.inl rfl⟩
      have hnone : (s.register.track order).find? clientId = none := by
        rw [OrderRegister.find?_track, if_neg hid]
        exact hfree
      rw [hnone] at hmoved
      show ((s.register.track order).move clientId .pendingCancel).find? x = _
      rw [hmoved x]
      split
      · rename_i hx
        rw [hx, if_neg hid]
        exact hfree.symm
      · exact htracked x
  | _ => cases h

end Job

end OfferDesk
