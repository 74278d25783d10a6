-- What work does to a desk comes down to a few kinds of change: to the orders and their events,
-- to the signatures, to the books by a snapshot or a transaction, and to the terms. A property of
-- desks that none of them breaks is kept by all work.
import OfferDesk.Proofs.BusyDesks

namespace OfferDesk

/-! ## The changes -/

/-- A property of desks that work does not break as long as it reads no terms. -/
structure DeskState.WorkInvariant (P : DeskState → Prop) : Prop where
  orders : ∀ s register events, P s → P { s with register := register, events := events }
  signs : ∀ s signed, P s → P { s with signed := signed }
  commits : ∀ d s market snapshot, P s → P (BookView.commit d s market snapshot).1
  patches : ∀ s o books, P s →
    s.books.map? (fun b => (b.applyOutcome? o).map (·.1)) = some books → P { s with books := books }

/-- A property of desks that no work breaks, and no time that passes. -/
structure DeskState.Invariant (P : DeskState → Prop) : Prop extends WorkInvariant P where
  reads : ∀ s terms, P s → P { s with terms := terms }
  waits : ∀ s now, P s → P { s with now := now }

namespace DeskState.WorkInvariant

variable {P : DeskState → Prop} {s s' : DeskState} {d : Desk} {o : Outcome}

theorem move (h : WorkInvariant P) (hs : P s) (clientId : String) (state : OrderState) :
    P (s.move clientId state) := by
  unfold DeskState.move
  split
  · exact h.orders s _ _ hs
  · exact hs

theorem track (h : WorkInvariant P) (hs : P s) (order : Order) : P (s.track order) :=
  h.orders s _ s.events hs

theorem sign (h : WorkInvariant P) (hs : P s) (d : Desk) (t : Transaction) : P (s.sign d t).1 := by
  unfold DeskState.sign
  split
  · exact h.signs s _ hs
  · exact hs

theorem patchBooks (h : WorkInvariant P) (hs : P s) (hpatch : s.patchBooks? o = some s') :
    P s' := by
  obtain ⟨books, hbooks, hpatch⟩ := Option.bind_eq_some_iff.mp hpatch
  cases hpatch
  exact h.patches s o books hs hbooks

theorem applyFills (h : WorkInvariant P) (hs : P s) (hfills : s.applyFills? d o = some s') :
    P s' := by
  obtain ⟨⟨register, events⟩, _, hfills⟩ := Option.bind_eq_some_iff.mp hfills
  cases hfills
  exact h.orders s register _ hs

theorem userOutcome (h : WorkInvariant P) (hs : P s) (huser : s.userOutcome? d o = some s') :
    P s' := by
  obtain ⟨s₁, hbooks, hfills⟩ := Option.bind_eq_some_iff.mp huser
  exact h.applyFills (h.patchBooks hs hbooks) hfills

theorem bookEvent (h : WorkInvariant P) (hs : P s) {event : Json}
    (hbook : s.bookEvent? event = some s') : P s' := by
  unfold bookEvent? at hbook
  split at hbook
  · exact h.patchBooks hs hbook
  · cases hbook
    exact hs

/-- A turn of larger work keeps the property if the turn does and what its result comes to does. -/
theorem andThen {σ τ α β : Type} {t : Turn σ α} {embed : σ → τ}
    {next : DeskState → α → Turn τ β} (ht : P t.1) (hnext : ∀ s a, P s → P (next s a).1) :
    P (t.andThen embed next).1 := by
  obtain ⟨s, p⟩ := t
  cases p with
  | ask pause request w => exact ht
  | done a => exact hnext s a ht
  | halted => exact ht

end DeskState.WorkInvariant

open DeskState (Invariant WorkInvariant)

variable {P : DeskState → Prop} {d : Desk} {s : DeskState}

/-! ## Looks, placements and cancels -/

namespace BookView

variable {market : Market}

theorem keeps_advance (h : WorkInvariant P) (hs : P s) (p : Progress BookFetch BookFetch.Result) :
    P (advance d s market p).1 := by
  refine WorkInvariant.andThen hs fun s result hs => ?_
  cases result with
  | error e => exact hs
  | ok snapshot => exact h.commits d s market snapshot hs

theorem keeps_start (h : WorkInvariant P) (hs : P s) : P (start d s market).1 := by
  unfold start
  split
  · split
    · exact keeps_advance h hs _
    · exact hs
  · exact keeps_advance h hs _

theorem keeps_resume (h : WorkInvariant P) (hs : P s) (v : BookView) (reply : Reply) :
    P (v.resume d s reply).1 :=
  keeps_advance h hs _

end BookView

namespace Placing

variable {o : PlaceOrder} {market : Market}

theorem keeps_fail (h : WorkInvariant P) (hs : P s) (id : Option ExchangeId) (reason : Failure) :
    P (fail s o id reason).1 :=
  h.move hs _ _

theorem keeps_finish (h : WorkInvariant P) (hs : P s) (id : ExchangeId) (v : Finality) :
    P (finish d o id s v).1 := by
  unfold finish
  split
  · exact keeps_fail h hs _ _
  · split
    · exact hs
    · rename_i s₁ hfills
      have h₁ := h.applyFills hs hfills
      dsimp only
      split
      · exact h.move h₁ _ _
      · exact h₁

theorem keeps_watch (h : WorkInvariant P) (hs : P s) (id : ExchangeId)
    (p : Progress Watch Finality) : P (watch d o id s p).1 :=
  WorkInvariant.andThen hs fun _ v hs => keeps_finish h hs id v

theorem keeps_submit (h : WorkInvariant P) (hs : P s) (signed : SignedTransaction) :
    P (submit o s signed).1 := by
  unfold submit
  split
  · dsimp only
    split
    · exact h.move hs _ _
    · exact h.orders s _ s.events hs
  · exact keeps_fail h hs _ _

theorem keeps_filled (h : WorkInvariant P) (hs : P s) (r : Autofill.Result) :
    P (filled d o s r).1 := by
  cases r with
  | error e => exact keeps_fail h hs _ _
  | ok t =>
    have hsign := h.sign hs d t
    unfold filled
    dsimp only
    generalize s.sign d t = signed at hsign ⊢
    obtain ⟨s₁, result⟩ := signed
    cases result with
    | error e => exact keeps_fail h hsign _ _
    | ok signed => exact keeps_submit h hsign signed

theorem keeps_fill (h : WorkInvariant P) (hs : P s) (p : Progress Autofill Autofill.Result) :
    P (fill d o s p).1 :=
  WorkInvariant.andThen hs fun _ r hs => keeps_filled h hs r

theorem keeps_build (h : WorkInvariant P) (hs : P s) (price : Decimal) :
    P (build d o market s price).1 := by
  unfold build
  dsimp only
  split
  · exact hs
  · exact keeps_fail h hs _ _
  · exact keeps_fill h hs _

theorem keeps_price (h : WorkInvariant P) {t : Turn BookView BookView.Result} (ht : P t.1) :
    P (price d o market t).1 := by
  refine WorkInvariant.andThen ht fun s result hs => ?_
  cases result with
  | error e => exact keeps_fail h hs _ _
  | ok book =>
    unfold priced
    dsimp only
    split
    · exact keeps_build h hs _
    · exact keeps_fail h hs _ _

theorem keeps_start (h : WorkInvariant P) (hs : P s) (o : PlaceOrder) : P (start d s o).1 := by
  have htrack := h.track hs o.toOrder
  unfold start
  dsimp only
  split
  · exact keeps_fail h htrack _ _
  · split
    · exact keeps_build h htrack _
    · split
      · exact keeps_price h (BookView.keeps_start h htrack)
      · exact keeps_fail h htrack _ _

theorem keeps_resume (h : WorkInvariant P) (hs : P s) (w : Placing) (reply : Reply) :
    P (w.resume d s reply).1 := by
  unfold resume
  split
  · exact keeps_price h (BookView.keeps_resume h hs _ reply)
  · exact keeps_fill h hs _
  · exact keeps_watch h hs _ _
  · exact keeps_watch h hs _ _

end Placing

namespace Cancelling

variable {c : CancelOrder}

theorem keeps_restore (h : WorkInvariant P) (hs : P s) : P (restore s c) := by
  unfold restore
  split
  · exact h.move hs _ _
  · exact hs

theorem keeps_finish (h : WorkInvariant P) (hs : P s) (v : Finality) : P (finish d c s v).1 := by
  unfold finish
  split
  · exact keeps_restore h hs
  · split
    · exact hs
    · rename_i s₁ hfills
      exact h.move (h.applyFills hs hfills) _ _

theorem keeps_watch (h : WorkInvariant P) (hs : P s) (p : Progress Watch Finality) :
    P (watch d c s p).1 :=
  WorkInvariant.andThen hs fun _ v hs => keeps_finish h hs v

theorem keeps_fill (h : WorkInvariant P) (hs : P s) (p : Progress Autofill Autofill.Result) :
    P (fill d c s p).1 := by
  refine WorkInvariant.andThen hs fun s result hs => ?_
  cases result with
  | error e => exact keeps_restore h hs
  | ok t =>
    have hsign := h.sign hs d t
    unfold filled
    dsimp only
    generalize s.sign d t = signed at hsign ⊢
    obtain ⟨s₁, result⟩ := signed
    cases result with
    | error e => exact keeps_restore h hsign
    | ok signed => exact hsign

theorem keeps_start (h : WorkInvariant P) (hs : P s) (clientId : String) (order : Order) :
    P (start d s clientId order).1 := by
  have hknown : P (known s clientId order) := by
    unfold known
    split
    · exact hs
    · exact h.track hs order
  unfold start
  split
  · exact hs
  · exact keeps_fill h (h.move hknown _ _) _

theorem keeps_resume (h : WorkInvariant P) (hs : P s) (w : Cancelling) (reply : Reply) :
    P (w.resume d s reply).1 := by
  unfold resume
  split
  · exact keeps_fill h hs _
  · exact keeps_watch h hs _
  · exact keeps_watch h hs _

end Cancelling

/-! ## The account stream -/

/-- Balances are asked for first, so the messages before them read no terms. -/
theorem UserStream.keeps_start (h : WorkInvariant P) (hs : P s) (events : List Json) :
    P (start d s events).1 := by
  induction events generalizing s with
  | nil => exact hs
  | cons event rest ih =>
    unfold start
    split
    · exact ih hs
    · split
      · exact hs
      · rename_i s₁ huser
        have h₁ := h.userOutcome hs huser
        split
        · exact h₁
        · exact ih h₁

/-! ## Work that reads terms -/

theorem BalanceUpdate.keeps_advance (h : Invariant P) (hs : P s)
    (p : Progress BalanceReading BalanceReading.Result) : P (advance s p).1 := by
  refine WorkInvariant.andThen hs fun s result hs => ?_
  cases result with
  | error e => exact hs
  | ok balances => exact h.reads s _ hs

theorem UserStream.keeps_resume (h : Invariant P) (hs : P s) (u : UserStream) (reply : Reply) :
    P (u.resume d s reply).1 :=
  WorkInvariant.andThen (BalanceUpdate.keeps_advance h hs _) fun _ _ hs =>
    keeps_start h.toWorkInvariant hs u.rest

namespace Refreshing

theorem keeps_read (h : Invariant P) (hs : P s) (infos : List RuleInfo)
    (p : Progress BalanceReading BalanceReading.Result) : P (read infos s p).1 := by
  refine WorkInvariant.andThen hs fun s result hs => ?_
  cases result with
  | error e => exact hs
  | ok balances => exact h.reads s _ hs

theorem keeps_survey (h : Invariant P) (hs : P s) (p : Progress Survey Survey.Result) :
    P (survey d s p).1 :=
  WorkInvariant.andThen hs fun _ rules hs => keeps_read h hs (Survey.sorted rules) _

theorem keeps_resume (h : Invariant P) (hs : P s) (w : Refreshing) (reply : Reply) :
    P (w.resume d s reply).1 := by
  cases w with
  | surveying w => exact keeps_survey h hs _
  | reading infos r => exact keeps_read h hs infos _

end Refreshing

namespace Task

variable {σ α : Type}

theorem keeps_lift {t : Turn σ α} {embed : σ → Task} {result : α → JobResult} (ht : P t.1) :
    P (lift t embed result).1 := by
  rwa [state_lift]

theorem keeps_resume (h : Invariant P) (hs : P s) (t : Task) (reply : Reply) :
    P (t.resume d s reply).1 := by
  cases t with
  | viewing w => exact keeps_lift (BookView.keeps_resume h.toWorkInvariant hs w reply)
  | placing w => exact keeps_lift (Placing.keeps_resume h.toWorkInvariant hs w reply)
  | cancelling w => exact keeps_lift (Cancelling.keeps_resume h.toWorkInvariant hs w reply)
  | readingBalances w => exact keeps_lift (BalanceUpdate.keeps_advance h hs _)
  | surveying w => exact keeps_lift hs
  | refreshing w => exact keeps_lift (Refreshing.keeps_resume h hs w reply)
  | takingIn w => exact keeps_lift (UserStream.keeps_resume h hs w reply)

theorem keeps_drop (h : WorkInvariant P) (hs : P s) (t : Task) : P (t.drop s) := by
  cases t with
  | cancelling w => exact Cancelling.keeps_restore h hs
  | _ => exact hs

end Task

theorem Job.keeps_start (h : Invariant P) (hs : P s) (job : Job) : P (job.start d s).1 := by
  cases job with
  | view pair =>
    simp only [start]
    split
    · exact Task.keeps_lift (BookView.keeps_start h.toWorkInvariant hs)
    · exact hs
  | place o => exact Task.keeps_lift (Placing.keeps_start h.toWorkInvariant hs o)
  | cancel clientId order =>
    exact Task.keeps_lift (Cancelling.keeps_start h.toWorkInvariant hs clientId order)
  | readBalances => exact Task.keeps_lift hs
  | surveyRules => exact Task.keeps_lift hs
  | refresh => exact Task.keeps_lift (Refreshing.keeps_survey h hs _)
  | takeIn events => exact Task.keeps_lift (UserStream.keeps_start h.toWorkInvariant hs events)

/-! ## Busy desks -/

namespace BusyDesk

variable {g g' : BusyDesk} {event : BusyEvent} {events : List BusyEvent}

theorem keeps_step (h : Invariant P) (hg : P g.state) (hstep : step? d g event = some g') :
    P g'.state := by
  cases event with
  | start n job =>
    simp only [step?] at hstep
    split at hstep
    · cases hstep
      exact job.keeps_start h hg
    · cases hstep
  | reply n r =>
    simp only [step?] at hstep
    split at hstep
    · rename_i w _
      cases hstep
      exact w.keeps_resume h hg r
    · cases hstep
      exact hg
  | drop n =>
    simp only [step?] at hstep
    split at hstep
    · rename_i w _
      cases hstep
      exact w.keeps_drop h.toWorkInvariant hg
    · cases hstep
      exact hg
  | bookMessage message =>
    obtain ⟨s, hs, rfl⟩ := Option.map_eq_some_iff.mp hstep
    exact h.bookEvent hg hs
  | clock now =>
    cases hstep
    exact h.waits _ now hg
  | move clientId state =>
    cases hstep
    exact h.move hg clientId state
  | takeIn ctx o =>
    obtain ⟨⟨register, reports⟩, _, rfl⟩ := Option.map_eq_some_iff.mp hstep
    exact h.orders g.state register _ hg
  | assign clientId id =>
    simp only [step?] at hstep
    split at hstep <;> cases hstep
    · exact h.orders g.state _ g.state.events hg
    · exact hg
  | track o =>
    cases hstep
    exact h.track hg o
  | untrack clientId =>
    cases hstep
    exact h.orders g.state _ g.state.events hg

theorem keeps_run (h : Invariant P) (hg : P g.state) (hrun : run? d g events = some g') :
    P g'.state := by
  induction events generalizing g with
  | nil =>
    cases hrun
    exact hg
  | cons event events ih =>
    rw [run?_cons] at hrun
    obtain ⟨g₁, hstep, hrest⟩ := Option.bind_eq_some_iff.mp hrun
    exact ih (keeps_step h hg hstep) hrest

end BusyDesk

end OfferDesk
