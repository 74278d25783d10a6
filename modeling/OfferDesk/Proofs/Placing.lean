-- What a placement does to an order that the ledger has confirmed meanwhile. The account stream
-- can bring the order's own transaction before the placement has its verdict. The placement goes
-- by its verdict all the same, so it gives up an order that rests on the ledger exactly when its
-- poll comes to nothing.
import OfferDesk.Desk.Placing
import OfferDesk.Desk.Streaming
import OfferDesk.Proofs.Effects

namespace OfferDesk

/-! ## The verdict of the poll -/

/-- Whether the verdict is that the transaction succeeded. -/
def Finality.confirms : Finality → Bool
  | validated o => o.isSuccess
  | _ => false

theorem Finality.verdict_of_not_confirms {v : Finality} (h : v.confirms = false)
    (clientId exchangeId : String) : ∃ e, v.verdict clientId exchangeId = .error e := by
  cases v with
  | validated o =>
    have hok : o.isSuccess = false := h
    exact ⟨_, by rw [verdict, hok]; rfl⟩
  | expired last => exact ⟨_, rfl⟩
  | failed => exact ⟨_, rfl⟩

theorem Finality.verdict_of_confirms {v : Finality} (h : v.confirms = true)
    (clientId exchangeId : String) :
    ∃ o, o.isSuccess = true ∧ v.verdict clientId exchangeId = .ok o := by
  cases v with
  | validated o =>
    have hok : o.isSuccess = true := h
    exact ⟨o, hok, by rw [verdict, if_pos hok]⟩
  | expired last => cases h
  | failed => cases h

/-- What a watch comes to with the replies in turn, if it comes to something. -/
def Watch.finality? : Progress Watch Finality → List Reply → Option Finality
  | .done v, _ => some v
  | .ask _ _ w, r :: rs => finality? (w.resume r) rs
  | .ask .., [] => none
  | .halted, _ => none

namespace Placing

/-- How the poll of a submitted placement goes on with a reply. -/
def Stage.poll? (d : Desk) (reply : Reply) : Stage → Option (ExchangeId × Progress Watch Finality)
  | submitting id signed =>
    some (id, Watch.start (some signed) reply.preliminary? d.pollInterval)
  | watching id w => some (id, w.resume reply)
  | _ => none

/-- Whether a placement has submitted its transaction. -/
def Stage.isSubmitted : Stage → Bool
  | submitting .. | watching .. => true
  | _ => false

/-- What the poll of a submitted placement comes to with the replies in turn. -/
def finality? (d : Desk) (w : Placing) : List Reply → Option Finality
  | [] => none
  | r :: rs => (w.stage.poll? d r).bind fun p => Watch.finality? p.2 rs

theorem poll?_of_isSubmitted (d : Desk) {w : Placing} (reply : Reply)
    (h : w.stage.isSubmitted = true) : ∃ id p, w.stage.poll? d reply = some (id, p) := by
  cases hstage : w.stage with
  | submitting id signed => exact ⟨_, _, rfl⟩
  | watching id watch => exact ⟨_, _, rfl⟩
  | pricing market view => simp [hstage, Stage.isSubmitted] at h
  | filling autofill => simp [hstage, Stage.isSubmitted] at h

theorem resume_of_poll? {d : Desk} {s : DeskState} {w : Placing} {reply : Reply} {id : ExchangeId}
    {p : Progress Watch Finality} (h : w.stage.poll? d reply = some (id, p)) :
    w.resume d s reply = watch d w.order id s p := by
  unfold resume
  cases hstage : w.stage <;> rw [hstage] at h <;> cases h <;> rfl

end Placing

/-! ## What a transaction does at the desk -/

namespace DeskState

variable {s s' : DeskState} {d : Desk} {o : Outcome} {clientId : String} {sequence : UInt32}

theorem register_move (s : DeskState) (clientId : String) (state : OrderState) :
    (s.move clientId state).register = s.register.move clientId state := by
  unfold move OrderRegister.move
  cases s.register.move? clientId state <;> rfl

theorem process?_of_applyFills (h : s.applyFills? d o = some s') :
    ∃ rules events, (Trader.mk d.account d.markets rules).process? o s.register =
      some (s'.register, events) := by
  simp only [applyFills?, Option.bind_eq_bind, Option.bind_eq_some_iff, Option.pure_def,
    Option.some.injEq, Prod.exists] at h
  obtain ⟨register, events, h, rfl⟩ := h
  exact ⟨_, events, h⟩

theorem register_patchBooks (h : s.patchBooks? o = some s') : s'.register = s.register := by
  simp only [patchBooks?, Option.bind_eq_bind, Option.bind_eq_some_iff, Option.pure_def,
    Option.some.injEq] at h
  obtain ⟨books, _, rfl⟩ := h
  rfl

/-- The books that a transaction of the stream patches are no concern of the orders. -/
theorem process?_of_userOutcome (h : s.userOutcome? d o = some s') :
    ∃ rules events, (Trader.mk d.account d.markets rules).process? o s.register =
      some (s'.register, events) := by
  simp only [userOutcome?, Option.bind_eq_bind, Option.bind_eq_some_iff] at h
  obtain ⟨s₁, hpatch, h⟩ := h
  rw [← register_patchBooks hpatch]
  exact process?_of_applyFills h

/-- Once the stream has brought the own offer of a live order, and that succeeded, the order is
confirmed. -/
theorem confirmed_of_userOutcome {order : Order} {market : Market} (hv : o.validated = true)
    (own : o.transaction.account = d.account) (kind : o.transaction.kind = "OfferCreate")
    (success : o.isSuccess = true) (changed : o.nodes.isEmpty = false)
    (found : s.register.resolve? o.transaction.sequence = some order)
    (fresh : order.hasApplied o.hash = false) (listed : d.markets.find? order.pair = some market)
    (h : s.userOutcome? d o = some s') :
    s'.register.Confirmed order.clientId o.transaction.sequence := by
  obtain ⟨rules, events, hprocess⟩ := process?_of_userOutcome h
  exact Trader.confirmed_of_ownCreate hv own kind success changed found fresh listed hprocess

end DeskState

/-! ## What reaches a desk while a placement waits -/

/-- A reply to the placement, a transaction of the account stream, or a change of the desk that
leaves the orders alone. -/
inductive PlacingEvent where
  | reply (r : Reply)
  | message (o : Outcome)
  | elsewhere (change : DeskState → DeskState) (keeps : ∀ s, (change s).register = s.register)

namespace PlacingEvent

def reply? : PlacingEvent → Option Reply
  | reply r => some r
  | _ => none

/-- Whether the event brings a refused offer of an account under a sequence. -/
def refuses (account : String) (sequence : UInt32) : PlacingEvent → Bool
  | message o => o.refuses account sequence
  | _ => false

end PlacingEvent

namespace Placing

/-- The desk and the placement after an event. A reply that nobody waits for does nothing, and
there is no result where an amount leaves the range of decimals. -/
def step? (d : Desk) (t : Turn Placing Result) : PlacingEvent → Option (Turn Placing Result)
  | .reply r =>
    match t.2 with
    | .ask _ _ w => some (w.resume d t.1 r)
    | _ => some t
  | .message o => (t.1.userOutcome? d o).map (·, t.2)
  | .elsewhere change _ => some (change t.1, t.2)

/-- The desk and the placement after one event after another. -/
def run? (d : Desk) (t : Turn Placing Result) (events : List PlacingEvent) :
    Option (Turn Placing Result) :=
  events.foldlM (step? d) t

variable {d : Desk} {s s' : DeskState} {p p' : Progress Placing Result} {w : Placing}
  {event : PlacingEvent} {events : List PlacingEvent} {clientId : String} {sequence : UInt32}

theorem run?_cons {t t' : Turn Placing Result} (h : run? d t (event :: events) = some t') :
    ∃ t₁, step? d t event = some t₁ ∧ run? d t₁ events = some t' := by
  rw [run?, List.foldlM_cons, Option.bind_eq_bind, Option.bind_eq_some_iff] at h
  exact h

/-- Whether a placement has come to an end. -/
def isOver : Progress Placing Result → Bool
  | .ask .. => false
  | _ => true

/-- An event that is no reply to a waiting placement leaves the placement as it is, and does to
the orders what a transaction may do, or nothing. -/
theorem step?_apart (h : step? d (s, p) event = some (s', p'))
    (hapart : isOver p = true ∨ event.reply? = none) :
    p' = p ∧ (s'.register = s.register ∨ ∃ o ctx es, event = .message o ∧
      ctx.account = d.account ∧ Trader.Effect ctx o s.register s'.register es) := by
  cases event with
  | reply r =>
    cases p with
    | ask pause request w => simp [isOver, PlacingEvent.reply?] at hapart
    | done result =>
      cases h
      exact ⟨rfl, Or.inl rfl⟩
    | halted =>
      cases h
      exact ⟨rfl, Or.inl rfl⟩
  | message o =>
    obtain ⟨s₁, hs, he⟩ := Option.map_eq_some_iff.mp h
    cases he
    obtain ⟨rules, es, hprocess⟩ := DeskState.process?_of_userOutcome hs
    exact ⟨rfl, Or.inr ⟨o, _, es, rfl, rfl, Trader.effect_process hprocess⟩⟩
  | elsewhere change keeps =>
    cases h
    exact ⟨rfl, Or.inl (keeps s)⟩

/-- Such an event keeps a confirmed order confirmed, unless it brings its refused offer. -/
theorem confirmed_apart (h : step? d (s, p) event = some (s', p'))
    (hapart : isOver p = true ∨ event.reply? = none)
    (hc : s.register.Confirmed clientId sequence)
    (hnot : event.refuses d.account sequence = false) :
    s'.register.Confirmed clientId sequence := by
  rcases (step?_apart h hapart).2 with hr | ⟨o, ctx, es, rfl, hctx, he⟩
  · rw [hr]
    exact hc
  · exact he.confirmed hc (by rw [hctx]; exact hnot)

/-- After the end of a placement a confirmed order stays confirmed. -/
theorem run?_over (h : run? d (s, p) events = some (s', p')) (hover : isOver p = true)
    (hc : s.register.Confirmed clientId sequence)
    (hnot : ∀ e ∈ events, e.refuses d.account sequence = false) :
    p' = p ∧ s'.register.Confirmed clientId sequence := by
  induction events generalizing s with
  | nil =>
    cases h
    exact ⟨rfl, hc⟩
  | cons event events ih =>
    obtain ⟨⟨s₁, p₁⟩, hstep, hrun⟩ := run?_cons h
    obtain rfl := (step?_apart hstep (Or.inl hover)).1
    exact ih hrun (confirmed_apart hstep (Or.inl hover) hc (hnot event List.mem_cons_self))
      fun e he => hnot e (List.mem_cons_of_mem _ he)

/-- After the end of a placement an order that has ended stays as it is. -/
theorem run?_dead {a : Order} (h : run? d (s, p) events = some (s', p')) (hover : isOver p = true)
    (hf : s.register.find? clientId = some a) (hdead : a.isLive = false) :
    p' = p ∧ s'.register.find? clientId = some a := by
  induction events generalizing s with
  | nil =>
    cases h
    exact ⟨rfl, hf⟩
  | cons event events ih =>
    obtain ⟨⟨s₁, p₁⟩, hstep, hrun⟩ := run?_cons h
    obtain ⟨rfl, hr⟩ := step?_apart hstep (Or.inl hover)
    refine ih hrun ?_
    rcases hr with hr | ⟨o, ctx, es, _, _, he⟩
    · rw [hr, hf]
    · obtain ⟨a', hf', ha⟩ := he.advances.forward hf
      rw [hf', ha.ended hdead]

/-! ## The end of a placement -/

/-- The poll of a placement comes to something other than a success. -/
def ComesToNothing (d : Desk) (w : Placing) (events : List PlacingEvent) : Prop :=
  ∃ v, w.finality? d (events.filterMap (·.reply?)) = some v ∧ v.confirms = false

/-- What a placement leaves behind, given whether its poll came to nothing: it fails just then,
and then the order has ended; otherwise the order is still confirmed. -/
def Leaves (s : DeskState) (p : Progress Placing Result) (clientId : String) (sequence : UInt32)
    (nothing : Prop) : Prop :=
  ((∃ e, p = .done (.error e)) ↔ nothing) ∧
  (¬nothing → s.register.Confirmed clientId sequence) ∧
  (nothing → ∃ a, s.register.find? clientId = some a ∧ a.isLive = false)

theorem finality?_watching (d : Desk) (o : PlaceOrder) (id : ExchangeId) (pause : Nat)
    (request : Request) (watch : Watch) (replies : List Reply) :
    finality? d ⟨o, .watching id watch⟩ replies =
      Watch.finality? (.ask pause request watch) replies := by
  cases replies <;> rfl

theorem comesToNothing_apart (hr : event.reply? = none) :
    ComesToNothing d w (event :: events) ↔ ComesToNothing d w events := by
  simp only [ComesToNothing, List.filterMap_cons, hr]

theorem comesToNothing_reply {reply : Reply} {id : ExchangeId} {poll : Progress Watch Finality}
    (h : w.stage.poll? d reply = some (id, poll)) :
    ComesToNothing d w (.reply reply :: events) ↔ ∃ v,
      Watch.finality? poll (events.filterMap (·.reply?)) = some v ∧ v.confirms = false := by
  simp only [ComesToNothing, List.filterMap_cons, PlacingEvent.reply?, finality?, h,
    Option.bind_some]

theorem leaves_over (h : run? d (s, p) events = some (s', p')) (hover : isOver p = true)
    (hok : ∀ e, p ≠ .done (.error e)) (hc : s.register.Confirmed clientId sequence)
    (hnot : ∀ e ∈ events, e.refuses d.account sequence = false) :
    Leaves s' p' clientId sequence False := by
  obtain ⟨rfl, hc'⟩ := run?_over h hover hc hnot
  exact ⟨⟨fun ⟨e, he⟩ => hok e he, False.elim⟩, fun _ => hc', False.elim⟩

/-- What follows from the verdict, and from whatever comes after it. -/
theorem leaves_finish {o : PlaceOrder} {id : ExchangeId} {v : Finality}
    (h : run? d (finish d o id s v) events = some (s', p'))
    (hc : s.register.Confirmed o.clientId sequence)
    (hnot : ∀ e ∈ events, e.refuses d.account sequence = false) :
    Leaves s' p' o.clientId sequence (v.confirms = false) := by
  unfold finish at h
  cases hv : v.confirms with
  | false =>
    obtain ⟨e, hverdict⟩ := v.verdict_of_not_confirms hv o.clientId id.text
    rw [hverdict] at h
    obtain ⟨a, hf, _⟩ := hc
    obtain ⟨a', hf', hdead⟩ := OrderRegister.not_live_of_move_terminal .failed hf rfl
    rw [← DeskState.register_move] at hf'
    obtain ⟨rfl, hf''⟩ := run?_dead h rfl hf' hdead
    exact ⟨⟨fun _ => rfl, fun _ => ⟨_, rfl⟩⟩, fun hn => absurd rfl hn, fun _ => ⟨a', hf'', hdead⟩⟩
  | true =>
    obtain ⟨outcome, hok, hverdict⟩ := v.verdict_of_confirms hv o.clientId id.text
    rw [hverdict] at h
    simp only [Bool.true_eq_false]
    dsimp only at h
    split at h
    · exact leaves_over h rfl (by simp) hc hnot
    · rename_i s₁ hfills
      obtain ⟨rules, es, hprocess⟩ := DeskState.process?_of_applyFills hfills
      have hc₁ : s₁.register.Confirmed o.clientId sequence :=
        (Trader.effect_process hprocess).confirmed hc (by simp [Outcome.refuses, hok])
      have hnew : s₁.isIn o.clientId .pendingCreate = false := by
        obtain ⟨a, hf, _, ha⟩ := hc₁
        have hstate : a.state ≠ .pendingCreate := by
          intro hs
          rw [hs] at ha
          cases ha
        simp [DeskState.isIn, DeskState.order?, hf, hstate]
      rw [hnew] at h
      exact leaves_over h rfl (by simp) hc₁ hnot

/-- A placement that has submitted its transaction fails an order that the ledger has confirmed,
and returns an error for it, exactly when its poll comes to something other than a success:
whatever the stream has brought does not count. -/
theorem confirmed_order_fails_by_the_poll {pause : Nat} {request : Request}
    (hw : w.stage.isSubmitted = true) (hc : s.register.Confirmed w.order.clientId sequence)
    (hnot : ∀ e ∈ events, e.refuses d.account sequence = false)
    (h : run? d (s, .ask pause request w) events = some (s', p')) :
    Leaves s' p' w.order.clientId sequence (ComesToNothing d w events) := by
  induction events generalizing s w pause request with
  | nil =>
    cases h
    have hn : ¬ComesToNothing d w [] := by
      rintro ⟨v, hv, _⟩
      cases hv
    refine ⟨⟨?_, fun hv => absurd hv hn⟩, fun _ => hc, fun hv => absurd hv hn⟩
    rintro ⟨e, he⟩
    cases he
  | cons event events ih =>
    obtain ⟨⟨s₁, p₁⟩, hstep, hrun⟩ := run?_cons h
    have hnot' : ∀ e ∈ events, e.refuses d.account sequence = false :=
      fun e he => hnot e (List.mem_cons_of_mem _ he)
    cases hr : event.reply? with
    | none =>
      obtain rfl := (step?_apart hstep (Or.inr hr)).1
      have hc₁ := confirmed_apart hstep (Or.inr hr) hc (hnot event List.mem_cons_self)
      rw [comesToNothing_apart hr]
      exact ih hw hc₁ hnot' hrun
    | some r =>
      cases event with
      | reply r =>
        obtain ⟨id, poll, hpoll⟩ := poll?_of_isSubmitted d r hw
        simp only [step?, Option.some.injEq] at hstep
        rw [resume_of_poll? hpoll] at hstep
        rw [comesToNothing_reply hpoll]
        cases poll with
        | ask pause' request' watch =>
          cases hstep
          simp only [← finality?_watching d w.order id pause' request' watch]
          exact ih (w := ⟨w.order, .watching id watch⟩) rfl hc hnot' hrun
        | halted =>
          cases hstep
          simpa [Watch.finality?] using leaves_over hrun rfl (by simp) hc hnot'
        | done v =>
          have hfinish : run? d (finish d w.order id s v) events = some (s', p') := by
            rw [← hrun, ← hstep]
            rfl
          simpa [Watch.finality?] using leaves_finish hfinish hc hnot'
      | message o => cases hr
      | elsewhere change keeps => cases hr

/-! An order is opened by its own transaction, which the stream brings while the placement polls.
Then the connection breaks. -/

def soloDesk : Desk where
  signer := ⟨"rMe", fun _ => .error "locked"⟩
  config := default
  markets := .ofList [("SOLO-XRP", ⟨"SOLO-XRP", .issued "SOLO" "rIssuer", .native⟩)]

def limitOrder : PlaceOrder := ⟨"a", "SOLO-XRP", .ofWord 1, .buy, .limit, some .one⟩

def pendingOrder : Order := { limitOrder.toOrder with exchangeId := some "1-1" }

def pendingDesk : DeskState where
  register := OrderRegister.empty.track pendingOrder

def waiting : Placing := ⟨limitOrder, .watching ⟨1, 1⟩ ⟨⟨"H1", 1, 0⟩, 1, .index⟩⟩

def polling : Progress Placing Result := .ask 0 .validatedLedger waiting

def restingCreate : Outcome where
  hash := "H1"
  transaction := ⟨"rMe", "OfferCreate", 1, none, none, 0, none, none, none⟩
  engineResult := "tesSUCCESS"
  nodes := [{
    kind := .created
    entryType := .offer
    ledgerIndex := "A1"
    before := {}
    after := { account := some "rMe", sequence := some 1 } }]
  ledgerIndex := some 1
  validated := true
  date := none

def lostConnection : PlacingEvent := .reply (.error "connection reset by peer")

theorem leaves_of_lost_connection : ∃ s₁ s' p',
    run? soloDesk (pendingDesk, polling) [.message restingCreate] = some (s₁, polling) ∧
    s₁.register.Confirmed "a" 1 ∧
    run? soloDesk (s₁, polling) [lostConnection] = some (s', p') ∧
    Leaves s' p' "a" 1 (ComesToNothing soloDesk waiting [lostConnection]) := by
  have found : pendingDesk.register.resolve? restingCreate.transaction.sequence =
      some pendingOrder := by decide +kernel
  have listed : soloDesk.markets.find? pendingOrder.pair =
      some ⟨"SOLO-XRP", .issued "SOLO" "rIssuer", .native⟩ := by decide +kernel
  have hc := DeskState.confirmed_of_userOutcome (s := pendingDesk) (d := soloDesk)
    (o := restingCreate) rfl rfl rfl rfl rfl found (by decide +kernel) listed rfl
  refine ⟨_, _, _, rfl, hc, rfl, confirmed_order_fails_by_the_poll rfl hc ?_ rfl⟩
  intro e he
  rw [List.mem_singleton.mp he]
  rfl

/-- An order that rests on the ledger is failed, and the placement returns an error for it. -/
theorem opened_order_is_failed : ∃ s₁ s₂ e,
    run? soloDesk (pendingDesk, polling) [.message restingCreate] = some (s₁, polling) ∧
    s₁.isIn "a" .opened = true ∧
    run? soloDesk (pendingDesk, polling) [.message restingCreate, lostConnection] =
      some (s₂, .done (.error e)) ∧ s₂.isIn "a" .failed = true :=
  ⟨_, _, _, rfl, by decide +kernel, rfl, by decide +kernel⟩

end Placing

end OfferDesk
