-- What a placement comes to when nothing else happens at the desk. Its result and the state of its
-- order agree on every way out: it succeeds where it gets as far as a submission whose transaction
-- is validated with success, and everywhere else its order fails and nothing else changes.
import OfferDesk.Ledger.Script
import OfferDesk.Proofs.Cancelling
import OfferDesk.Proofs.PlacingTurns

namespace OfferDesk

/-! ## Work that is left to itself -/

/-- What some work came to: how it ended, with the desk then, the replies that it did not need, and
the blobs that it submitted. It is dropped where there is no reply to its last request. -/
structure Conclusion (α : Type) where
  state : DeskState
  ending : Ending α
  rest : List Reply
  submitted : List String

namespace Conclusion

variable {α β : Type}

/-- The conclusion after further blobs that were submitted before. -/
def after (blobs : List String) (c : Conclusion α) : Conclusion α :=
  { c with submitted := blobs ++ c.submitted }

/-- A conclusion that is carried on from its result, if there is one. -/
def andThen (c : Conclusion α) (next : DeskState → α → List Reply → Conclusion β) :
    Conclusion β :=
  match c.ending with
  | .finished a => (next c.state a c.rest).after c.submitted
  | .halted => ⟨c.state, .halted, c.rest, c.submitted⟩
  | .dropped => ⟨c.state, .dropped, c.rest, c.submitted⟩

/-- What follows from the result of a conclusion, if there is one. -/
def bind? (c : Conclusion α) (next : DeskState → α → List Reply → Option β) : Option β :=
  match c.ending with
  | .finished a => next c.state a c.rest
  | .halted | .dropped => none

theorem bind?_eq_some_iff {c : Conclusion α} {next : DeskState → α → List Reply → Option β}
    {b : β} : c.bind? next = some b ↔ ∃ a, c.ending = .finished a ∧ next c.state a c.rest = some b := by
  unfold bind?
  cases c.ending <;> simp

theorem after_nil (c : Conclusion α) : c.after [] = c := rfl

theorem after_andThen (blobs : List String) (c : Conclusion α)
    (next : DeskState → α → List Reply → Conclusion β) :
    (c.after blobs).andThen next = (c.andThen next).after blobs := by
  unfold andThen after
  cases c.ending with
  | finished a => simp only [List.append_assoc]
  | halted => rfl
  | dropped => rfl

end Conclusion

namespace Turn

variable {σ τ α β : Type} {resume : DeskState → σ → Reply → Turn σ α}
  {resume' : DeskState → τ → Reply → Turn τ β} {t : Turn σ α} {s : DeskState}

/-- What some work comes to with the replies in turn. -/
def conclude (resume : DeskState → σ → Reply → Turn σ α) : Turn σ α → List Reply → Conclusion α
  | (s, .done a), replies => ⟨s, .finished a, replies, []⟩
  | (s, .halted), replies => ⟨s, .halted, replies, []⟩
  | (s, .ask _ request _), [] => ⟨s, .dropped, [], request.submits⟩
  | (s, .ask _ request w), reply :: replies =>
    (conclude resume (resume s w reply) replies).after request.submits

theorem conclude_done (s : DeskState) (a : α) (replies : List Reply) :
    conclude resume (s, .done a) replies = ⟨s, .finished a, replies, []⟩ := by
  cases replies <;> rfl

theorem conclude_halted (s : DeskState) (replies : List Reply) :
    conclude resume (s, .halted) replies = ⟨s, .halted, replies, []⟩ := by
  cases replies <;> rfl

/-- A larger piece of work comes to what its first part comes to, carried on. -/
theorem conclude_andThen {embed : σ → τ} {next : DeskState → α → Turn τ β}
    (hresume : ∀ s w reply, resume' s (embed w) reply = (resume s w reply).andThen embed next)
    (t : Turn σ α) (replies : List Reply) :
    (t.andThen embed next).conclude resume' replies =
      (t.conclude resume replies).andThen fun s a rest => (next s a).conclude resume' rest := by
  induction replies generalizing t with
  | nil =>
    obtain ⟨s, p⟩ := t
    cases p <;> rfl
  | cons reply replies ih =>
    obtain ⟨s, p⟩ := t
    cases p with
    | halted => rfl
    | done a => rfl
    | ask pause request w =>
      show (conclude resume' (resume' s (embed w) reply) replies).after request.submits = _
      rw [hresume, ih, conclude, Conclusion.after_andThen]

/-- A turn that leaves the orders alone, and submits nothing. -/
def IsQuiet (s : DeskState) (t : Turn σ α) : Prop := s.SameOrders t.1 ∧ t.2.submits = []

/-- Work that leaves the orders alone in each turn leaves them alone altogether. -/
theorem quiet_conclude (hresume : ∀ s w reply, IsQuiet s (resume s w reply)) (ht : IsQuiet s t)
    (replies : List Reply) :
    s.SameOrders (t.conclude resume replies).state ∧
      (t.conclude resume replies).submitted = [] := by
  induction replies generalizing s t with
  | nil =>
    obtain ⟨s', p⟩ := t
    cases p with
    | ask pause request w => exact ht
    | halted => exact ⟨ht.1, rfl⟩
    | done a => exact ⟨ht.1, rfl⟩
  | cons reply replies ih =>
    obtain ⟨s', p⟩ := t
    cases p with
    | halted => exact ⟨ht.1, rfl⟩
    | done a => exact ⟨ht.1, rfl⟩
    | ask pause request w =>
      obtain ⟨hsame, hsubmitted⟩ := ih (hresume s' w reply)
      have hquiet : request.submits = [] := ht.2
      rw [conclude, hquiet, Conclusion.after_nil]
      exact ⟨⟨hsame.register.trans ht.1.register, hsame.signed.trans ht.1.signed⟩, hsubmitted⟩

/-- Work that has no use of the desk, as work at one. -/
def aside (resume : σ → Reply → Progress σ α) (s : DeskState) (w : σ) (reply : Reply) : Turn σ α :=
  (s, resume w reply)

theorem state_conclude_aside (resume : σ → Reply → Progress σ α) (s : DeskState)
    (p : Progress σ α) (replies : List Reply) :
    (conclude (aside resume) (s, p) replies).state = s := by
  induction replies generalizing p with
  | nil => cases p <;> rfl
  | cons reply replies ih =>
    cases p with
    | halted => rfl
    | done a => rfl
    | ask pause request w => exact ih (resume w reply)

end Turn

theorem Autofill.Fills.submits {t : Transaction} {p : Progress Autofill Autofill.Result}
    (h : Autofill.Fills t p) : p.submits = [] := by
  cases p with
  | ask pause request f => exact h.2
  | done result => rfl
  | halted => rfl

theorem quiet_autofill (s : DeskState) (f : Autofill) (reply : Reply) :
    Turn.IsQuiet s (Turn.aside Autofill.resume s f reply) :=
  ⟨⟨rfl, rfl⟩, (Autofill.fills_resume f reply).submits⟩

theorem quiet_watch (s : DeskState) (w : Watch) (reply : Reply) :
    Turn.IsQuiet s (Turn.aside Watch.resume s w reply) :=
  ⟨⟨rfl, rfl⟩, Watch.submits_resume w reply⟩

/-! ## How far a placement gets -/

/-- The side of a book that an order takes from. -/
def Side.takesFrom : Side → BookSide
  | .buy => .ask
  | .sell => .bid

namespace Placing

/-- The price of a market order is that of the first ask if it buys, and of the first bid if it
sells. -/
theorem bestPrice?_eq (side : Side) (book : OrderBook) :
    bestPrice? side book = (book.entries side.takesFrom).head?.map (·.price) := by
  cases side <;> rfl

/-- What a placement submits: the signed transaction, the exchange id of its order, and the replies
that come after. -/
structure Submission where
  signed : SignedTransaction
  id : ExchangeId
  replies : List Reply

/-- A transaction of which a placement can make a submission. It is signed, its sequence and its
last ledger are filled in, and no live order carries the sequence. -/
def signing? (d : Desk) (s : DeskState) (t : Transaction) (replies : List Reply) :
    Option Submission := do
  let signed ← (d.signer.sign t).toOption
  let sequence ← signed.transaction.sequence
  let last ← signed.transaction.lastLedger
  if s.register.carrying sequence = [] then some ⟨signed, ⟨sequence, last⟩, replies⟩ else none

/-- A transaction that is filled in with the replies in turn, and signed. -/
def filling? (d : Desk) (s : DeskState) (p : Progress Autofill Autofill.Result)
    (replies : List Reply) : Option Submission :=
  (Turn.conclude (Turn.aside Autofill.resume) (s, p) replies).bind? fun s result rest => do
    signing? d s (← result.toOption) rest

/-- An order that can be built at a price, filled in and signed. -/
def building? (d : Desk) (s : DeskState) (o : PlaceOrder) (market : Market) (price : Decimal)
    (replies : List Reply) : Option Submission := do
  let built ← PricedOrder.build? ⟨o.clientId, market, o.side, o.kind, o.amount, price⟩ d.account
    (s.terms.tradingRules.find? o.pair) d.config.slippage
  let t ← built.toOption
  filling? d s (Autofill.start t d.config.ledgerOffset) replies

/-- A market order for which a look at the book finds an entry on the side that it takes from. The
first one there is the best, and gives the price. -/
def pricing? (d : Desk) (o : PlaceOrder) (market : Market) (t : Turn BookView BookView.Result)
    (replies : List Reply) : Option Submission :=
  (t.conclude (BookView.resume d) replies).bind? fun s result rest => do
    let book ← result.toOption
    let best ← (book.entries o.side.takesFrom).head?
    building? d s o market best.price rest

/-- How far a placement gets with the replies in turn. It submits a transaction exactly if its pair
is one of the desk, a price is given or, for a market order, found in the book, the transaction can
be built, filled in and signed with a sequence and a last ledger, and no live order carries the
sequence. -/
def submission? (d : Desk) (s : DeskState) (o : PlaceOrder) (replies : List Reply) :
    Option Submission := do
  let market ← (d.market o.pair).toOption
  match o.price with
  | some price => building? d s o market price replies
  | none =>
    if o.kind = .market then pricing? d o market (BookView.start d s market) replies else none

variable {d : Desk} {o : PlaceOrder} {s s₁ : DeskState} {c : Conclusion Result}
  {replies : List Reply} {market : Market}

/-- A placement that does not get as far as a submission. If it comes to a result its order fails,
and in any case it has submitted nothing. -/
structure Refused (s : DeskState) (o : PlaceOrder) (c : Conclusion Result) : Prop where
  failed : ∀ r, c.ending = .finished r →
    (∃ e, r = .error e) ∧ c.state.register = s.register.move o.clientId .failed
  submitted : c.submitted = []

/-- What a placement with a new order comes to, by how far it gets. -/
def ComesTo (d : Desk) (s : DeskState) (o : PlaceOrder) (c : Conclusion Result) :
    Option Submission → Prop
  | none => Refused s o c
  | some x => ∃ s₁ : DeskState, s.register.assign o.clientId x.id = .ok s₁.register ∧
    c = Turn.conclude (resume d) (s₁, .ask 0 (.submit x.signed.blob) ⟨o, .submitting x.id x.signed⟩)
      x.replies

theorem ComesTo.of_same {x : Option Submission} (h : ComesTo d s₁ o c x)
    (hs : s₁.register = s.register) : ComesTo d s o c x := by
  cases x with
  | none => exact ⟨fun r hr => hs ▸ h.failed r hr, h.submitted⟩
  | some x =>
    obtain ⟨s₂, hassign, hc⟩ := h
    exact ⟨s₂, hs ▸ hassign, hc⟩

theorem comesTo_error {e : OrderError} :
    ComesTo d s o (Turn.conclude (resume d) (s.move o.clientId .failed, .done (.error e)) replies)
      none := by
  rw [Turn.conclude_done]
  refine ⟨fun r hr => ?_, rfl⟩
  cases hr
  exact ⟨⟨e, rfl⟩, DeskState.register_move _ _ _⟩

theorem comesTo_fail {reason : Failure} :
    ComesTo d s o ((fail s o none reason).conclude (resume d) replies) none :=
  comesTo_error

/-- A placement whose first part leaves the orders alone comes to what the rest comes to from the
result of that part, and to no submission where there is none. -/
theorem comesTo_andThen {σ α : Type} {resume' : DeskState → σ → Reply → Turn σ α}
    {t : Turn σ α} {embed : σ → Placing} {next : DeskState → α → Turn Placing Result}
    {rest? : DeskState → α → List Reply → Option Submission}
    (hresume : ∀ s w reply, resume d s (embed w) reply = (resume' s w reply).andThen embed next)
    (hquiet : ∀ s w reply, Turn.IsQuiet s (resume' s w reply)) (ht : Turn.IsQuiet s t)
    (hnext : ∀ s₁ a rest, s.SameOrders s₁ →
      ComesTo d s₁ o ((next s₁ a).conclude (resume d) rest) (rest? s₁ a rest)) :
    ComesTo d s o ((t.andThen embed next).conclude (resume d) replies)
      ((t.conclude resume' replies).bind? rest?) := by
  rw [Turn.conclude_andThen hresume]
  obtain ⟨hsame, hsubmitted⟩ := Turn.quiet_conclude hquiet ht replies
  unfold Conclusion.andThen Conclusion.bind?
  cases (t.conclude resume' replies).ending with
  | finished a =>
    dsimp only
    rw [hsubmitted, Conclusion.after_nil]
    exact (hnext _ a _ hsame).of_same hsame.register
  | halted => exact ⟨fun r hr => (nomatch hr), hsubmitted⟩
  | dropped => exact ⟨fun r hr => (nomatch hr), hsubmitted⟩

/-- The order of a placement that has its transaction signed gets its exchange id, unless another
live order carries the sequence. -/
theorem comesTo_submit {signed : SignedTransaction} {n last : UInt32} (hnew : s.IsNew o.clientId)
    (hn : signed.transaction.sequence = some n)
    (hlast : signed.transaction.lastLedger = some last) :
    ComesTo d s o ((submit o s signed).conclude (resume d) replies)
      (if s.register.carrying n = [] then some ⟨signed, ⟨n, last⟩, replies⟩ else none) := by
  simp only [submit, hn, hlast]
  obtain ⟨a, ha, _, hid⟩ := hnew
  have hown : ∀ b ∈ s.register.carrying n, b.clientId ≠ o.clientId := by
    intro b hb heq
    obtain ⟨hfind, _, hs⟩ := OrderRegister.mem_carrying.mp hb
    obtain rfl : b = a := Option.some.inj (hfind.symm.trans (heq ▸ ha))
    simp [Order.sequence?, hid] at hs
  by_cases hfree : s.register.carrying n = []
  · have hassign : s.register.assign o.clientId ⟨n, last⟩ = .ok _ :=
      OrderRegister.assign_eq_ok_iff.mpr ⟨fun b hb => by simp [hfree] at hb, a, ha, rfl⟩
    rw [if_pos hfree, hassign]
    exact ⟨_, hassign, rfl⟩
  · rw [if_neg hfree]
    obtain ⟨b, hb⟩ := List.exists_mem_of_ne_nil _ hfree
    have hb' : b ∈ s.register.carrying (ExchangeId.mk n last).sequence := hb
    obtain ⟨owner, _, _, hassign⟩ := OrderRegister.assign_of_owner hb' (hown b hb)
    rw [hassign]
    exact comesTo_error

theorem comesTo_filled {t : Transaction} (hnew : s.IsNew o.clientId) :
    ComesTo d s o ((filled d o s (.ok t)).conclude (resume d) replies)
      (signing? d s t replies) := by
  simp only [filled, DeskState.sign]
  unfold signing?
  cases d.signer.sign t with
  | error text => exact comesTo_fail
  | ok signed =>
    simp only [Except.toOption, Option.bind_eq_bind, Option.bind_some]
    cases hn : signed.transaction.sequence with
    | none =>
      simp only [submit, hn]
      exact comesTo_fail.of_same rfl
    | some n =>
      cases hlast : signed.transaction.lastLedger with
      | none =>
        simp only [submit, hn, hlast]
        exact comesTo_fail.of_same rfl
      | some last =>
        exact (comesTo_submit (s := { s with signed := s.signed ++ [t] }) hnew hn hlast).of_same
          rfl

theorem isNew_of_same (hnew : s.IsNew o.clientId) (hsame : s.SameOrders s₁) :
    s₁.IsNew o.clientId := by
  obtain ⟨a, ha⟩ := hnew
  exact ⟨a, by rw [DeskState.order?, hsame.register]; exact ha⟩

theorem comesTo_fill {p : Progress Autofill Autofill.Result} {t : Transaction}
    (hnew : s.IsNew o.clientId) (hp : Autofill.Fills t p) :
    ComesTo d s o ((fill d o s p).conclude (resume d) replies) (filling? d s p replies) := by
  refine comesTo_andThen (t := (s, p)) (fun _ _ _ => rfl) quiet_autofill
    ⟨⟨rfl, rfl⟩, hp.submits⟩ ?_
  intro s₁ result rest hsame
  cases result with
  | error e => exact comesTo_fail
  | ok t => exact comesTo_filled (isNew_of_same hnew hsame)

theorem comesTo_build {price : Decimal} (hnew : s.IsNew o.clientId) :
    ComesTo d s o ((build d o market s price).conclude (resume d) replies)
      (building? d s o market price replies) := by
  unfold build building?
  dsimp only
  cases PricedOrder.build? ⟨o.clientId, market, o.side, o.kind, o.amount, price⟩ d.account
      (s.terms.tradingRules.find? o.pair) d.config.slippage with
  | none =>
    dsimp only
    rw [Turn.conclude_halted]
    exact ⟨fun r hr => (nomatch hr), rfl⟩
  | some built =>
    cases built with
    | error e => exact comesTo_fail
    | ok t => exact comesTo_fill hnew (Autofill.fills_start t _)

theorem comesTo_price {t : Turn BookView BookView.Result} (hnew : s.IsNew o.clientId)
    (ht : BookView.Looks s t) :
    ComesTo d s o ((price d o market t).conclude (resume d) replies)
      (pricing? d o market t replies) := by
  refine comesTo_andThen (fun _ _ _ => rfl) (BookView.looks_resume d) ht ?_
  intro s₁ result rest hsame
  cases result with
  | error e => exact comesTo_fail
  | ok book =>
    simp only [priced, bestPrice?_eq, Except.toOption, Option.bind_eq_bind, Option.bind_some]
    cases (book.entries o.side.takesFrom).head? with
    | none => exact comesTo_fail
    | some best => exact comesTo_build (isNew_of_same hnew hsame)

/-- A placement comes to a submission, or its order fails before there is one. -/
theorem comesTo_start :
    ComesTo d (s.track o.toOrder) o ((start d s o).conclude (resume d) replies)
      (submission? d (s.track o.toOrder) o replies) := by
  have hnew := s.isNew_track o
  unfold start submission?
  dsimp only
  cases d.market o.pair with
  | error e => exact comesTo_fail
  | ok market =>
    simp only [Except.toOption, Option.bind_eq_bind, Option.bind_some]
    cases o.price with
    | some price => exact comesTo_build hnew
    | none =>
      dsimp only
      split
      · exact comesTo_price hnew (BookView.looks_start _ _ _)
      · exact comesTo_fail

/-! ## The verdict on a submission -/

theorem finality?_eq (p : Progress Watch Finality) (s : DeskState) (replies : List Reply) :
    Watch.finality? p replies =
      (Turn.conclude (Turn.aside Watch.resume) (s, p) replies).bind? fun _ v _ => some v := by
  induction replies generalizing p with
  | nil => cases p <;> rfl
  | cons reply replies ih =>
    cases p with
    | halted => rfl
    | done v => rfl
    | ask pause request w => exact ih (w.resume reply)

end Placing

/-! ## What a successful transaction leaves of an order -/

namespace OrderRegister

variable {r r' : OrderRegister} {a : Order} {clientId x : String} {state : OrderState}

/-- The order under a client id has not failed. -/
def Unfailed (clientId : String) (r : OrderRegister) : Prop :=
  ∀ a, r.find? clientId = some a → a.state ≠ .failed

theorem Unfailed.sets (h : r.Unfailed clientId) (hsets : Sets x (some a) r r')
    (ha : a.state ≠ .failed) : r'.Unfailed clientId := by
  intro b hb
  rw [hsets] at hb
  split at hb
  · obtain rfl := Option.some.inj hb
    exact ha
  · exact h b hb

theorem Unfailed.move (h : r.Unfailed clientId) (hs : state ≠ .failed) :
    (r.move x state).Unfailed clientId := by
  intro b hb
  rw [r.sets_move x state] at hb
  split at hb
  · rename_i hx
    obtain ⟨a, ha, rfl⟩ := Option.map_eq_some_iff.mp hb
    unfold Order.movedTo
    split
    · exact hs
    · exact h a (hx ▸ ha)
  · exact h b hb

end OrderRegister

/-- A transaction that succeeded makes no order fail. -/
theorem Trader.Effect.unfailed {ctx : Trader} {t : Outcome} {r r' : OrderRegister}
    {events : List OrderEvent} {clientId : String} (h : ctx.Effect t r r' events)
    (hsuccess : t.isSuccess = true) (hr : r.Unfailed clientId) : r'.Unfailed clientId := by
  induction h with
  | nothing r => exact hr
  | ends _ _ cause report =>
    rw [OrderRegister.eq_move_of_report report]
    refine hr.move ?_
    rcases cause with ⟨rfl, _⟩ | ⟨rfl, refused⟩
    · decide
    · simp [Outcome.refuses, hsuccess] at refused
  | @counts r r' order f market next events _ _ _ found _ confirmed count =>
    unfold Fill.count? at count
    split at count
    · cases count
      exact hr
    · simp only [Option.bind_eq_bind, Option.bind_eq_some_iff, Option.pure_def, Option.some.injEq,
        Prod.mk.injEq] at count
      obtain ⟨o', ho', _, _, hr', _⟩ := count
      rw [OrderRegister.eq_move_of_report (Prod.ext hr' rfl)]
      have hlive : order.isLive = true := OrderRegister.live_of_resolve? found
      have hstate : o'.state = order.state := by
        obtain ⟨_, _, _, _, rfl⟩ := Order.withFill?_eq_some_iff.mp ho'
        rfl
      refine (hr.sets (r.sets_track o') ?_).move ?_
      · intro hfailed
        rw [Order.isLive, ← hstate, hfailed] at hlive
        cases hlive
      · intro hfailed
        have hnext := confirmed o'
        rw [hfailed] at hnext
        cases hnext
  | andThen _ _ ih ih' => exact ih' (ih hr)

/-! ## Results and orders -/

namespace Placing

variable {d : Desk} {o : PlaceOrder} {s s₁ : DeskState} {c : Conclusion Result}
  {replies : List Reply}

/-- The states that an order can be in once its transaction has succeeded. -/
def standing : List OrderState := [.opened, .partiallyFilled, .filled, .canceled]

/-- An order that waits to be created stands after a successful transaction, once it is opened if
nothing else has come of it. -/
theorem stands_of_success {t : Outcome} {a : Order} {s₂ : DeskState}
    (ha : s.order? o.clientId = some a) (hstate : a.state = .pendingCreate)
    (hsuccess : t.isSuccess = true) (hfills : s.applyFills? d t = some s₂) :
    ∃ b, (if s₂.isIn o.clientId .pendingCreate then s₂.move o.clientId .opened else s₂).order?
        o.clientId = some b ∧ b.exchangeId = a.exchangeId ∧ b.state ∈ standing := by
  obtain ⟨b, hb, hreached⟩ := DeskState.order?_of_applyFills hfills ha
  have hid : b.exchangeId = a.exchangeId := by
    rcases hreached with rfl | hreached
    · rfl
    · exact hreached.keeps.exchangeId_eq
  have hunfailed : b.state ≠ .failed := by
    obtain ⟨rules, es, hp⟩ := DeskState.process?_of_applyFills hfills
    refine (Trader.effect_process hp).unfailed hsuccess (fun c hc => ?_) b hb
    obtain rfl := Option.some.inj (ha.symm.trans hc)
    rw [hstate]
    decide
  by_cases hpending : b.state = .pendingCreate
  · have hisIn : s₂.isIn o.clientId .pendingCreate = true := by
      simp [DeskState.isIn, hb, hpending]
    rw [if_pos hisIn]
    refine ⟨{ b with state := .opened }, ?_, hid, by simp [standing]⟩
    have hmoved := s₂.register.sets_move o.clientId .opened o.clientId
    rw [if_pos rfl, show s₂.register.find? o.clientId = some b from hb, Option.map_some,
      Order.movedTo, hpending] at hmoved
    rw [DeskState.order?, DeskState.register_move]
    exact hmoved
  · have hisIn : ¬s₂.isIn o.clientId .pendingCreate = true := by
      simp [DeskState.isIn, hb, hpending]
    rw [if_neg hisIn]
    have hmarked : b.state ≠ .pendingCancel := by
      rcases hreached with rfl | hreached
      · rw [hstate]
        decide
      · exact hreached.settled
    refine ⟨b, hb, hid, ?_⟩
    cases hs : b.state <;> simp_all [standing]

/-- What a submission comes to. It succeeds, and the order stands, exactly if its poll finds the
transaction validated with success and no amount leaves its range. If it comes to an error the
order fails. -/
structure Settled (d : Desk) (o : PlaceOrder) (x : Submission) (s : DeskState)
    (c : Conclusion Result) : Prop where
  succeeds : ∀ text, c.ending = .finished (.ok text) ↔ c.ending ≠ .halted ∧ text = x.id.text ∧
    ∃ t : Outcome, finality? d ⟨o, .submitting x.id x.signed⟩ x.replies = some (.validated t) ∧
      t.isSuccess = true
  stands : ∀ text, c.ending = .finished (.ok text) →
    ∃ a, c.state.order? o.clientId = some a ∧ a.exchangeId = some text ∧ a.state ∈ standing
  fails : ∀ e, c.ending = .finished (.error e) →
    c.state.register = s.register.move o.clientId .failed
  submitted : c.submitted = [x.signed.blob]

/-- A submission whose poll comes to no verdict comes to no result. -/
theorem settled_of_none {x : Submission}
    (hv : finality? d ⟨o, .submitting x.id x.signed⟩ x.replies = none)
    (hc : ∀ r, c.ending ≠ .finished r) (hsubmitted : c.submitted = [x.signed.blob]) :
    Settled d o x s c where
  succeeds text := by
    refine ⟨fun hok => absurd hok (hc _), ?_⟩
    rintro ⟨_, _, t, ht, _⟩
    rw [hv] at ht
    cases ht
  stands _ hok := absurd hok (hc _)
  fails _ he := absurd he (hc _)
  submitted := hsubmitted

/-- A submission that halts is settled whatever the verdict. -/
theorem settled_of_halted {x : Submission} (hc : c.ending = .halted)
    (hsubmitted : c.submitted = [x.signed.blob]) : Settled d o x s c where
  succeeds text := by
    refine ⟨fun hok => ?_, fun h => absurd hc h.1⟩
    rw [hc] at hok
    cases hok
  stands text hok := by
    rw [hc] at hok
    cases hok
  fails e he := by
    rw [hc] at he
    cases he
  submitted := hsubmitted

/-- A submission that fails its order comes to an error, and its poll finds no success. -/
theorem settled_of_error {x : Submission} {e : OrderError}
    (hv : ∀ t, finality? d ⟨o, .submitting x.id x.signed⟩ x.replies = some (.validated t) →
      t.isSuccess = false)
    (hc : c.ending = .finished (.error e))
    (hfailed : c.state.register = s.register.move o.clientId .failed)
    (hsubmitted : c.submitted = [x.signed.blob]) : Settled d o x s c where
  succeeds text := by
    constructor
    · intro hok
      rw [hc] at hok
      cases hok
    · rintro ⟨_, _, t, ht, hsuccess⟩
      rw [hv t ht] at hsuccess
      cases hsuccess
  stands text hok := by
    rw [hc] at hok
    cases hok
  fails _ _ := hfailed
  submitted := hsubmitted

/-- A submission that comes to its exchange id has an order that stands, and its poll finds
success. -/
theorem settled_of_ok {x : Submission} {t : Outcome}
    (hv : finality? d ⟨o, .submitting x.id x.signed⟩ x.replies = some (.validated t))
    (hsuccess : t.isSuccess = true) (hc : c.ending = .finished (.ok x.id.text))
    (hstands : ∃ a, c.state.order? o.clientId = some a ∧ a.exchangeId = some x.id.text ∧
      a.state ∈ standing)
    (hsubmitted : c.submitted = [x.signed.blob]) : Settled d o x s c where
  succeeds text := by
    constructor
    · intro hok
      rw [hc] at hok
      cases hok
      refine ⟨fun hhalted => ?_, rfl, t, hv, hsuccess⟩
      rw [hc] at hhalted
      cases hhalted
    · rintro ⟨_, rfl, _⟩
      exact hc
  stands text hok := by
    rw [hc] at hok
    cases hok
    exact hstands
  fails e he := by
    rw [hc] at he
    cases he
  submitted := hsubmitted

/-- A submission whose poll comes to a verdict is settled by it. -/
theorem settled_of_verdict {x : Submission} {a : Order} {v : Finality} {rest : List Reply}
    (ha : s.order? o.clientId = some a) (hstate : a.state = .pendingCreate)
    (hid : a.exchangeId = some x.id.text)
    (hv : finality? d ⟨o, .submitting x.id x.signed⟩ x.replies = some v)
    (hc : c = ((finish d o x.id s v).conclude (resume d) rest).after [x.signed.blob]) :
    Settled d o x s c := by
  subst hc
  cases hconfirms : v.confirms with
  | false =>
    obtain ⟨e, he⟩ := Finality.verdict_of_not_confirms hconfirms o.clientId x.id.text
    simp only [finish, he, fail, Turn.conclude_done]
    refine settled_of_error (fun t ht => ?_) rfl (DeskState.register_move _ _ _) rfl
    obtain rfl := Option.some.inj (hv.symm.trans ht)
    exact hconfirms
  | true =>
    obtain ⟨t, hsuccess, hverdict⟩ := Finality.verdict_of_confirms hconfirms o.clientId x.id.text
    have hvalidated : v = .validated t := by
      cases v with
      | validated t' =>
        rw [Finality.confirms] at hconfirms
        rw [Finality.verdict, if_pos hconfirms] at hverdict
        cases hverdict
        rfl
      | expired last => cases hconfirms
      | failed => cases hconfirms
    simp only [finish, hverdict]
    cases hfills : s.applyFills? d t with
    | none =>
      simp only [Turn.conclude_halted]
      exact settled_of_halted rfl rfl
    | some s₂ =>
      obtain ⟨b, hb, hbid, hbstate⟩ := stands_of_success ha hstate hsuccess hfills
      simp only [Turn.conclude_done]
      exact settled_of_ok (hvalidated ▸ hv) hsuccess rfl ⟨b, hb, hbid.trans hid, hbstate⟩ rfl

/-- A placement that polls comes to what it makes of the verdict. -/
theorem conclude_watch (id : ExchangeId) (s : DeskState) (p : Progress Watch Finality)
    (replies : List Reply) :
    (watch d o id s p).conclude (resume d) replies =
      (Turn.conclude (Turn.aside Watch.resume) (s, p) replies).andThen fun s v rest =>
        (finish d o id s v).conclude (resume d) rest :=
  Turn.conclude_andThen (fun _ _ _ => rfl) (s, p) replies

/-- A submission is judged by what the poll of its transaction comes to. -/
theorem settled_of_submission {x : Submission} {a : Order} (ha : s.order? o.clientId = some a)
    (hstate : a.state = .pendingCreate) (hid : a.exchangeId = some x.id.text) :
    Settled d o x s (Turn.conclude (resume d)
      (s, .ask 0 (.submit x.signed.blob) ⟨o, .submitting x.id x.signed⟩) x.replies) := by
  cases hreplies : x.replies with
  | nil => exact settled_of_none (by rw [hreplies]; rfl) (fun r hr => nomatch hr) rfl
  | cons reply replies =>
    let p := Watch.start (some x.signed) reply.preliminary? d.pollInterval
    have hpoll : Stage.poll? d reply (.submitting x.id x.signed) = some (x.id, p) := rfl
    have hv : finality? d ⟨o, .submitting x.id x.signed⟩ (reply :: replies) = _ :=
      finality?_eq p s replies
    have hs := Turn.state_conclude_aside Watch.resume s p replies
    obtain ⟨_, hsubmitted⟩ := Turn.quiet_conclude quiet_watch (t := (s, p))
      ⟨⟨rfl, rfl⟩, Watch.submits_start _ _ _⟩ replies
    rw [Turn.conclude, resume_of_poll? (w := ⟨o, .submitting x.id x.signed⟩) hpoll, conclude_watch]
    unfold Conclusion.andThen
    revert hv hs hsubmitted
    generalize Turn.conclude (Turn.aside Watch.resume) (s, p) replies = g
    intro hv hs hsubmitted
    rw [hs, hsubmitted]
    rw [← hreplies] at hv
    unfold Conclusion.bind? at hv
    cases hending : g.ending with
    | finished v =>
      rw [hending] at hv
      exact settled_of_verdict ha hstate hid hv rfl
    | halted =>
      rw [hending] at hv
      exact settled_of_none hv (fun r hr => nomatch hr) rfl
    | dropped =>
      rw [hending] at hv
      exact settled_of_none hv (fun r hr => nomatch hr) rfl

theorem numbered_of_signing {t : Transaction} {x : Submission}
    (h : signing? d s t replies = some x) : x.signed.transaction.sequence = some x.id.sequence ∧
      x.signed.transaction.lastLedger = some x.id.lastLedger := by
  simp only [signing?, Option.bind_eq_bind, Option.bind_eq_some_iff] at h
  obtain ⟨signed, _, n, hn, last, hlast, h⟩ := h
  split at h
  · cases h
    exact ⟨hn, hlast⟩
  · cases h

theorem numbered_of_building {market : Market} {price : Decimal} {x : Submission}
    (h : building? d s o market price replies = some x) :
    x.signed.transaction.sequence = some x.id.sequence ∧
      x.signed.transaction.lastLedger = some x.id.lastLedger := by
  simp only [building?, filling?, Option.bind_eq_bind, Option.bind_eq_some_iff,
    Conclusion.bind?_eq_some_iff] at h
  obtain ⟨_, _, _, _, r, _, t, _, h⟩ := h
  exact numbered_of_signing h

/-- The exchange id of an order is made of the sequence and the last ledger of the transaction that
is submitted for it. -/
theorem numbered_of_submission {x : Submission} (h : submission? d s o replies = some x) :
    x.signed.transaction.sequence = some x.id.sequence ∧
      x.signed.transaction.lastLedger = some x.id.lastLedger := by
  simp only [submission?, Option.bind_eq_bind, Option.bind_eq_some_iff] at h
  obtain ⟨market, _, h⟩ := h
  split at h
  · exact numbered_of_building h
  · split at h
    · simp only [pricing?, Option.bind_eq_bind, Option.bind_eq_some_iff,
        Conclusion.bind?_eq_some_iff] at h
      obtain ⟨r, _, book, _, best, _, h⟩ := h
      exact numbered_of_building h
    · cases h

/-- The result of a placement and the state of its order agree, with whatever configuration, signer
and replies of the ledger, if nothing else happens at the desk meanwhile. It comes to a success
exactly if no amount leaves its range and it gets as far as a submission whose poll finds the
transaction validated with success. Then its result is the exchange id made of the sequence and the
last ledger of the signed transaction, and the order stands under that id. If it comes to an error
the order has failed with nothing executed, and every other order is as before. It submits the
signed transaction once if it gets that far, and nothing otherwise, however it ends. -/
theorem result_agrees_with_order (d : Desk) (s : DeskState) (o : PlaceOrder)
    (replies : List Reply) :
    let c := (start d s o).conclude (resume d) replies
    (∀ text, c.ending = .finished (.ok text) ↔ c.ending ≠ .halted ∧
      ∃ x t, submission? d (s.track o.toOrder) o replies = some x ∧
        finality? d ⟨o, .submitting x.id x.signed⟩ x.replies = some (.validated t) ∧
        t.isSuccess = true ∧ x.signed.transaction.sequence = some x.id.sequence ∧
        x.signed.transaction.lastLedger = some x.id.lastLedger ∧ text = x.id.text) ∧
    (∀ text, c.ending = .finished (.ok text) → ∃ a, c.state.order? o.clientId = some a ∧
      a.exchangeId = some text ∧ a.state ∈ standing) ∧
    (∀ e, c.ending = .finished (.error e) →
      (∃ id, c.state.order? o.clientId =
        some { o.toOrder with exchangeId := id, state := .failed }) ∧
      ∀ x, x ≠ o.clientId → c.state.order? x = s.order? x) ∧
    c.submitted =
      ((submission? d (s.track o.toOrder) o replies).map fun x => x.signed.blob).toList := by
  intro c
  have htracked : (s.track o.toOrder).order? o.clientId = some o.toOrder :=
    OrderRegister.find?_track_self _ _
  have hothers : ∀ x, x ≠ o.clientId → (s.track o.toOrder).order? x = s.order? x := fun x hx =>
    (OrderRegister.find?_track _ _ _).trans (if_neg hx)
  have hcomes : ComesTo d (s.track o.toOrder) o c _ := comesTo_start
  cases hx : submission? d (s.track o.toOrder) o replies with
  | none =>
    rw [hx] at hcomes
    have herror : ∀ text, c.ending ≠ .finished (.ok text) := by
      intro text hok
      obtain ⟨⟨e, he⟩, _⟩ := hcomes.failed _ hok
      cases he
    refine ⟨fun text => ⟨fun hok => absurd hok (herror text), ?_⟩,
      fun text hok => absurd hok (herror text), fun e he => ?_, hcomes.submitted⟩
    · rintro ⟨_, x, t, hsome, _⟩
      cases hsome
    · obtain ⟨hfailed, hrest⟩ := order?_of_failed htracked rfl (hcomes.failed _ he).2
      exact ⟨⟨none, hfailed⟩, fun x hne => (hrest x hne).trans (hothers x hne)⟩
  | some x =>
    rw [hx] at hcomes
    obtain ⟨s₁, hassign, hconclude⟩ := hcomes
    obtain ⟨a, ha, hsets⟩ := OrderRegister.sets_assign hassign
    obtain rfl := Option.some.inj (htracked.symm.trans ha)
    have hown : s₁.order? o.clientId = some { o.toOrder with exchangeId := x.id.text } :=
      (hsets _).trans (if_pos rfl)
    have hsettled : Settled d o x s₁ c := hconclude ▸ settled_of_submission hown rfl rfl
    obtain ⟨hsequence, hlast⟩ := numbered_of_submission hx
    refine ⟨fun text => (hsettled.succeeds text).trans ⟨?_, ?_⟩, hsettled.stands, fun e he => ?_,
      hsettled.submitted⟩
    · rintro ⟨hrun, htext, t, ht, hsuccess⟩
      exact ⟨hrun, x, t, rfl, ht, hsuccess, hsequence, hlast, htext⟩
    · rintro ⟨hrun, y, t, hy, ht, hsuccess, _, _, htext⟩
      cases hy
      exact ⟨hrun, htext, t, ht, hsuccess⟩
    · obtain ⟨hfailed, hrest⟩ := order?_of_failed hown rfl (hsettled.fails e he)
      refine ⟨⟨x.id.text, hfailed⟩, fun y hne => ?_⟩
      calc c.state.order? y = s₁.order? y := hrest y hne
        _ = (s.track o.toOrder).order? y := (hsets y).trans (if_neg hne)
        _ = s.order? y := hothers y hne

/-! A limit order is placed twice: the ledger validates its transaction, or the connection is lost
before it is submitted. -/

def openedAnswer : Answer := .ofResult (.object [
  ("Account", .string "rMe"), ("TransactionType", .string "OfferCreate"), ("Sequence", .ofNat 3),
  ("hash", .string "C0FFEE"), ("ledger_index", .ofNat 9),
  ("meta", .object [("AffectedNodes", .array []), ("TransactionResult", .string "tesSUCCESS")]),
  ("validated", .bool true)])

def openingReplies : List Reply :=
  [.ok Cancelling.accountAnswer, .ok Cancelling.feeAnswer, .ok Cancelling.currentAnswer,
    .ok Cancelling.submitAnswer, .ok (LedgerHistory.indexAnswer 9), .ok openedAnswer]

def losingReplies : List Reply :=
  [.ok Cancelling.accountAnswer, .error "connection reset by peer"]

theorem results_of_two_placements :
    (∃ c, (start Cancelling.signingDesk {} limitOrder).conclude (resume Cancelling.signingDesk)
        openingReplies = c ∧
      c.ending = .finished (.ok "3-28") ∧ c.submitted = ["B10B"] ∧
      ∃ a, c.state.order? "a" = some a ∧ a.exchangeId = some "3-28" ∧ a.state ∈ standing) ∧
    ∃ c e, (start Cancelling.signingDesk {} limitOrder).conclude (resume Cancelling.signingDesk)
        losingReplies = c ∧
      c.ending = .finished (.error e) ∧ c.submitted = [] ∧
      ∃ id, c.state.order? "a" =
        some { limitOrder.toOrder with exchangeId := id, state := .failed } := by
  obtain ⟨c, hc, hok, hsubmitted⟩ : ∃ c, (start Cancelling.signingDesk {} limitOrder).conclude
      (resume Cancelling.signingDesk) openingReplies = c ∧
        c.ending = .finished (.ok "3-28") ∧ c.submitted = ["B10B"] := ⟨_, rfl, rfl, rfl⟩
  obtain ⟨c', e, hc', herror, hsubmitted'⟩ : ∃ c e,
      (start Cancelling.signingDesk {} limitOrder).conclude (resume Cancelling.signingDesk)
        losingReplies = c ∧ c.ending = .finished (.error e) ∧ c.submitted = [] :=
    ⟨_, _, rfl, rfl, rfl⟩
  obtain ⟨_, hstands, _⟩ :=
    result_agrees_with_order Cancelling.signingDesk {} limitOrder openingReplies
  obtain ⟨_, _, hfails, _⟩ :=
    result_agrees_with_order Cancelling.signingDesk {} limitOrder losingReplies
  rw [hc] at hstands
  rw [hc'] at hfails
  exact ⟨⟨c, hc, hok, hsubmitted, hstands _ hok⟩,
    c', e, hc', herror, hsubmitted', (hfails e herror).1⟩

end Placing

end OfferDesk
