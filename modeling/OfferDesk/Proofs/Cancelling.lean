-- What a cancel leaves behind, with whatever reaches the desk while it waits. A cancel that comes to
-- nothing or is dropped leaves every order as if it had never been tried. One that succeeds has
-- seen its transaction validated, and ends the order.
import OfferDesk.Desk.Cancelling
import OfferDesk.Proofs.DeskEvents
import OfferDesk.Proofs.Submitting

namespace OfferDesk

/-! ## One turn of a cancel -/

namespace DeskState

variable {d : Desk} {s s' s'' : DeskState} {o : Order} {state : OrderState} {t : Transaction}

/-- The second desk has the same orders, books and terms. -/
structure Alike (s s' : DeskState) : Prop where
  terms : s'.terms = s.terms
  books : s'.books = s.books
  register : s'.register = s.register

theorem Alike.refl (s : DeskState) : Alike s s := ⟨rfl, rfl, rfl⟩

theorem SameBut.alike (h : SameBut o state s s') (h' : Alike s' s'') : SameBut o state s s'' where
  terms := h'.terms.trans h.terms
  books := h'.books.trans h.books
  register := by
    rw [h'.register]
    exact h.register

end DeskState

namespace Cancelling

/-- A transaction of the account that cancels an order, signed. -/
def Signs (d : Desk) (order : Order) (signed : SignedTransaction) : Prop :=
  ∃ t sequence, order.sequence? = some sequence ∧ t.account = d.account ∧
    t.action = .cancel sequence ∧ d.signer.sign t = .ok signed

/-- What a waiting cancel works on, and what it asks for once its transaction is submitted. -/
def Asks (d : Desk) (order : Order) (request : Request) (w : Cancelling) : Prop :=
  match w.stage with
  | .filling f => ∃ sequence, order.sequence? = some sequence ∧
    f.transaction.account = d.account ∧ f.transaction.action = .cancel sequence
  | .submitting signed => Signs d order signed
  | .watching watch => ∃ signed, Signs d order signed ∧ watch.Asks signed.hash request

/-- What a cancel that waits for the reply to a request can do with it. -/
inductive Goes (d : Desk) (order : Order) (c : CancelOrder) (s : DeskState)
    (request : Request) (reply : Reply) : Turn Cancelling Bool → Prop where
  | waits {s' : DeskState} {pause : Nat} {request' : Request} {w : Cancelling}
    (alike : s.Alike s') (cancel : w.cancel = c) (asks : w.Asks d order request') :
    Goes d order c s request reply (s', .ask pause request' w)
  | fails {s' : DeskState} (alike : s.Alike s') :
    Goes d order c s request reply (restore s' c, .done false)
  | halts : Goes d order c s request reply (s, .halted)
  | succeeds {signed : SignedTransaction} {answer : Answer} {outcome : Outcome} {s' : DeskState}
    (signs : Signs d order signed) (asked : request = .transaction signed.hash)
    (answered : reply = .ok answer) (found : Lookup.ofAnswer? answer = some (.validated outcome))
    (success : outcome.isSuccess = true) (fills : s.applyFills? d outcome = some s') :
    Goes d order c s request reply (s'.move c.clientId .canceled, .done true)

variable {d : Desk} {s s' : DeskState} {order : Order} {request : Request} {reply : Reply}
  {w : Cancelling} {c : CancelOrder}

theorem goes_watch {signed : SignedTransaction} {p : Progress Watch Finality}
    (hs : Signs d order signed) (hp : Watch.Learns signed.hash request reply p) :
    Goes d order c s request reply (watch d c s p) := by
  cases p with
  | ask pause request' watch => exact .waits (.refl s) rfl ⟨signed, hs, hp⟩
  | halted => exact hp.elim
  | done v =>
    cases v with
    | expired last => exact .fails (.refl s)
    | failed => exact .fails (.refl s)
    | validated outcome =>
      obtain ⟨hasked, answer, hanswered, hfound⟩ := hp
      simp only [watch, Turn.andThen, finish, Finality.verdict]
      by_cases hok : outcome.isSuccess = true
      · simp only [if_pos hok]
        split
        · exact .halts
        · rename_i s' hfills
          exact .succeeds hs hasked hanswered hfound hok hfills
      · simp only [if_neg hok]
        exact .fails (.refl s)

theorem goes_resume (h : w.Asks d order request) (reply : Reply) :
    Goes d order w.cancel s request reply (w.resume d s reply) := by
  unfold Asks at h
  unfold resume
  cases hstage : w.stage with
  | submitting signed =>
    rw [hstage] at h
    exact goes_watch h (Watch.learns_start signed reply.preliminary? d.pollInterval reply)
  | watching watch =>
    rw [hstage] at h
    obtain ⟨signed, hs, hasks⟩ := h
    exact goes_watch hs (Watch.learns_resume hasks reply)
  | filling f =>
    rw [hstage] at h
    have hfill := Autofill.fills_resume f reply
    simp only [fill, Turn.andThen]
    cases hp : f.resume reply with
    | halted =>
      rw [hp] at hfill
      exact hfill.elim
    | ask pause request' f' =>
      rw [hp] at hfill
      refine .waits (.refl s) rfl ?_
      unfold Asks
      dsimp only
      rw [hfill.1]
      exact h
    | done result =>
      cases result with
      | error e => exact .fails (.refl s)
      | ok t =>
        rw [hp] at hfill
        obtain ⟨n, fee, last, ht⟩ := hfill
        simp only [filled, DeskState.sign]
        cases hsigned : d.signer.sign t with
        | error text => exact .fails (.refl s)
        | ok signed =>
          obtain ⟨sequence, hsequence, haccount, haction⟩ := h
          exact .waits ⟨rfl, rfl, rfl⟩ rfl ⟨t, sequence, hsequence, by rw [ht]; exact haccount,
            by rw [ht]; exact haction, hsigned⟩

/-- A cancel of a tracked order starts by marking the order, and remembers the state it was in. -/
theorem start_of_order {a : Order} {clientId : String} {sequence : UInt32}
    (hn : order.sequence? = some sequence)
    (ha : s.order? clientId = some a) : ∃ w, start d s clientId order =
        (s.move clientId .pendingCancel, .ask 0 (.accountInfo d.account) w) ∧
      w.cancel = ⟨clientId, order.exchangeId.getD "", a.state⟩ ∧
      w.Asks d order (.accountInfo d.account) := by
  refine ⟨⟨⟨clientId, order.exchangeId.getD "", a.state⟩,
    .filling ⟨.cancelOf d.account sequence clientId, d.config.ledgerOffset, .account⟩⟩, ?_, rfl,
    sequence, hn, rfl, rfl⟩
  simp only [start, hn, known, ha]
  rfl

/-! ## Taking a cancel back -/

/-- While a cancel that remembers a state waits, an order that the ledger has in one state is at the
desk in another one only because the cancel marked it. -/
def Undoable (previous : OrderState) (o : Order) (state : OrderState) : Prop :=
  state = .pendingCancel ∧ previous = o.state ∧ o.state ≠ .pendingCreate ∨
    state = o.state ∧ state ≠ .pendingCancel

variable {s₀ s₁ s₁' : DeskState} {o : Order} {state previous : OrderState}

theorem restore_eq (s : DeskState) (c : CancelOrder) (h : s.order? c.clientId = some o) :
    restore s c = if o.state = .pendingCancel then s.move c.clientId c.previous else s := by
  simp only [restore, DeskState.isIn, h]
  simp

theorem canMoveTo_of_pendingCancel (next : OrderState) :
    OrderState.canMoveTo .pendingCancel next = true ↔ next ≠ .pendingCreate := by
  cases next <;> decide

/-- The state of an order after a cancel is taken back that remembers one. -/
def restored (previous state : OrderState) : OrderState :=
  if state = .pendingCancel ∧ previous ≠ .pendingCreate then previous else state

/-- A cancel that is taken back changes the state of its order at most. -/
theorem sameBut_restored (h : DeskState.SameBut o state s₀ s) (hc : c.clientId = o.clientId)
    (hp : state = .pendingCancel → c.previous.isTerminal = false) :
    DeskState.SameBut o (restored c.previous state) s₀ (restore s c) := by
  have hstate := h.there
  rw [← hc] at hstate
  rw [restore_eq s c hstate]
  dsimp only
  unfold restored
  by_cases hs : state = .pendingCancel
  · have hmoved := h.move (hp hs)
    subst hs
    rw [if_pos rfl, hc]
    simpa only [canMoveTo_of_pendingCancel, true_and] using hmoved
  · rw [if_neg hs, if_neg fun hboth => hs hboth.1]
    exact h

/-- Taken back, a cancel that is undoable has changed no order. -/
theorem sameBut_restore (h : DeskState.SameBut o state s₀ s) (hc : c.clientId = o.clientId)
    (hu : Undoable c.previous o state) : DeskState.SameBut o o.state s₀ (restore s c) := by
  rcases hu with ⟨rfl, hp, hnew⟩ | ⟨rfl, hne⟩
  · have hlive : o.state.isTerminal = false := h.register.isTerminal_eq.symm
    have hrestored := sameBut_restored h hc fun _ => by rw [hp]; exact hlive
    rw [restored, hp, if_pos ⟨rfl, hnew⟩] at hrestored
    exact hrestored
  · have hrestored := sameBut_restored h hc fun hs => absurd hs hne
    rw [restored, if_neg fun hboth => hne hboth.1] at hrestored
    exact hrestored

/-- A mark can be taken back. -/
theorem undoable_start (ha : s.order? o.clientId = some o) : ∃ state,
    DeskState.SameBut o state s (s.move o.clientId .pendingCancel) ∧ Undoable o.state o state := by
  refine ⟨_, (DeskState.SameBut.refl ha).move rfl, ?_⟩
  split
  · rename_i hcan
    refine Or.inl ⟨rfl, rfl, ?_⟩
    rintro hnew
    rw [hnew] at hcan
    cases hcan
  · rename_i hcan
    refine Or.inr ⟨rfl, ?_⟩
    intro hp
    rw [hp] at hcan
    exact hcan rfl

/-- What reaches the desk meanwhile keeps a cancel undoable. -/
theorem undoable_after {e : DeskEvent} (he : e.clientId? ≠ some o.clientId)
    (h : DeskState.SameBut o state s₀ s) (hu : Undoable previous o state) :
    Option.Rel (fun s₁ s₁' => ∃ o' state', DeskState.SameBut o' state' s₁ s₁' ∧
      o'.clientId = o.clientId ∧ Undoable previous o' state') (s₀.after? d e) (s.after? d e) := by
  apply rel_imp (h.after d he)
  rintro s₁ s₁' _ _ ⟨o', state', hsame, hid, ho, hstate⟩
  refine ⟨o', state', hsame, hid, ?_⟩
  rcases hstate with rfl | ⟨rfl, rfl⟩
  · rcases ho with rfl | hreached
    · rcases hu with ⟨_, hp, hnew⟩ | ⟨rfl, hne⟩
      · by_cases hc : o'.state = .pendingCancel
        · exact Or.inl ⟨hc, hp, hnew⟩
        · exact Or.inr ⟨rfl, hc⟩
      · exact Or.inr ⟨rfl, hne⟩
    · exact Or.inr ⟨rfl, hreached.settled⟩
  · exact hu

/-! ## What reaches the desk while a cancel waits -/

end Cancelling

/-- A reply to the cancel, or anything else that reaches the desk. -/
inductive CancelEvent where
  | reply (r : Reply)
  | desk (e : DeskEvent)

def CancelEvent.desk? : CancelEvent → Option DeskEvent
  | reply _ => none
  | desk e => some e

/-- What reaches the desk apart from the replies to the cancel. -/
def CancelEvent.desks (events : List CancelEvent) : List DeskEvent := events.filterMap (·.desk?)

namespace Cancelling

/-- The desk and the cancel after an event. A reply that nobody waits for does nothing, and there
is no result where an amount leaves the range of decimals. -/
def step? (d : Desk) (t : Turn Cancelling Bool) : CancelEvent → Option (Turn Cancelling Bool)
  | .reply r =>
    match t.2 with
    | .ask _ _ w => some (w.resume d t.1 r)
    | _ => some t
  | .desk e => (t.1.after? d e).map (·, t.2)

/-- The desk and the cancel after one event after another. -/
def run? (d : Desk) (t : Turn Cancelling Bool) (events : List CancelEvent) :
    Option (Turn Cancelling Bool) :=
  events.foldlM (step? d) t

/-- Whether a cancel has come to an end. -/
def isOver : Progress Cancelling Bool → Bool
  | .ask .. => false
  | _ => true

variable {p p' : Progress Cancelling Bool} {event : CancelEvent} {events : List CancelEvent}

theorem run?_cons (t : Turn Cancelling Bool) :
    run? d t (event :: events) = (step? d t event).bind (run? d · events) :=
  List.foldlM_cons

/-- After the end of a cancel only what reaches the desk otherwise counts. -/
theorem run?_over (h : run? d (s, p) events = some (s', p')) (hover : isOver p = true) :
    p' = p ∧ s.afterAll? d (CancelEvent.desks events) = some s' := by
  induction events generalizing s with
  | nil =>
    cases h
    exact ⟨rfl, rfl⟩
  | cons event events ih =>
    rw [run?_cons] at h
    cases event with
    | reply r =>
      cases p with
      | ask pause request w => cases hover
      | done result => exact ih h
      | halted => exact ih h
    | desk e =>
      obtain ⟨t₁, hstep, h⟩ := Option.bind_eq_some_iff.mp h
      obtain ⟨s₁, hs, rfl⟩ := Option.map_eq_some_iff.mp hstep
      obtain ⟨hp, hrest⟩ := ih h
      exact ⟨hp, by rw [CancelEvent.desks, List.filterMap_cons]; exact
        (DeskState.afterAll?_cons.trans (by rw [hs]; exact hrest))⟩

/-! ## What a cancel leaves behind -/

/-- How a cancel comes to succeed. Its own transaction, signed for the sequence, was looked up and
found validated with success. Up to then the desk was as without the cancel; then came the fills
of the transaction, and the order ended as canceled unless it had ended before. -/
inductive Succeeds (d : Desk) (order : Order) (clientId : String) (s₀ : DeskState)
    (t : Turn Cancelling Bool) (events : List CancelEvent) (s' : DeskState) : Prop where
  | intro {before after : List CancelEvent} {answer : Answer} {sb s₁ s₂ s₃ : DeskState}
    {pause : Nat} {w : Cancelling} {signed : SignedTransaction} {outcome : Outcome} {a b : Order}
    (split : events = before ++ .reply (.ok answer) :: after)
    (asked : run? d t before = some (sb, .ask pause (.transaction signed.hash) w))
    (signs : Signs d order signed)
    (found : Lookup.ofAnswer? answer = some (.validated outcome))
    (success : outcome.isSuccess = true)
    (without : s₀.afterAll? d (CancelEvent.desks before) = some s₁)
    (fills : s₁.applyFills? d outcome = some s₂)
    (stood : s₁.order? clientId = some a) (filled : s₂.order? clientId = some b)
    (kept : a.KeepsFills b)
    (ended : s'.order? clientId = some (if b.isLive then { b with state := .canceled } else b))
    (later : (s₂.move clientId .canceled).afterAll? d (CancelEvent.desks after) = some s₃)
    (others : s₃.Agrees s') : Succeeds d order clientId s₀ t events s'

/-- What a cancel leaves behind at a desk that would have been `s₀` without it: after a failure, or
if it is dropped, what would have become of that desk; after a success the order has ended. -/
structure Leaves (d : Desk) (order : Order) (clientId : String) (s₀ : DeskState)
    (t : Turn Cancelling Bool) (events : List CancelEvent) (s' : DeskState)
    (p : Progress Cancelling Bool) : Prop where
  dropped : ∀ pause request w, p = .ask pause request w →
    ∃ s₁, s₀.afterAll? d (CancelEvent.desks events) = some s₁ ∧ s₁.Agrees (w.drop s')
  failed : p = .done false →
    ∃ s₁, s₀.afterAll? d (CancelEvent.desks events) = some s₁ ∧ s₁.Agrees s'
  succeeded : p = .done true → Succeeds d order clientId s₀ t events s'

theorem movedTo_canceled (o : Order) :
    o.movedTo .canceled = if o.isLive then { o with state := .canceled } else o := by
  cases hl : o.isLive with
  | true => rw [Order.movedTo_of_live hl (Or.inl rfl), if_pos rfl]
  | false =>
    have hdead : o.state.isTerminal = true := by simpa [Order.isLive] using hl
    simp [Order.movedTo, OrderState.canMoveTo_of_terminal hdead]

/-- A reply with which a cancel succeeds, and whatever comes after it. -/
theorem succeeds_of_reply {answer : Answer} {outcome : Outcome} {signed : SignedTransaction}
    {pause : Nat} (h : DeskState.SameBut o state s₀ s)
    (hapart : ∀ e ∈ CancelEvent.desks events, e.clientId? ≠ some o.clientId)
    (hs : Signs d order signed)
    (hfound : Lookup.ofAnswer? answer = some (.validated outcome))
    (hok : outcome.isSuccess = true) (hfills : s.applyFills? d outcome = some s₁)
    (hrun : run? d (s₁.move o.clientId .canceled, .done true) events = some (s', p)) :
    Succeeds d order o.clientId s₀ (s, .ask pause (.transaction signed.hash) w)
      (.reply (.ok answer) :: events) s' := by
  obtain ⟨_, hlater⟩ := run?_over hrun rfl
  have hrel := h.applyFills d outcome
  rw [hfills] at hrel
  obtain ⟨s₂, hfills₀, b, state', hsame, hid, hb, _⟩ := exists_of_rel_some hrel
  have hended := hsame.move_terminal (show OrderState.canceled.isTerminal = true from rfl)
  have hid' : (b.movedTo .canceled).clientId = o.clientId :=
    (b.clientId_movedTo .canceled).trans hid
  have hrest := hended.afterAll d fun e he => hid' ▸ hapart e he
  rw [hid, hlater] at hrest
  obtain ⟨s₃, hlater₀, o', hsame', _, ho'⟩ := exists_of_rel_some hrest
  -- an order that has ended stays as it is
  have hend : o' = b.movedTo .canceled := by
    rcases ho' with rfl | hreached
    · rfl
    · have hlive := hreached.live
      rw [movedTo_canceled] at hlive
      split at hlive
      · cases hlive
      · exact absurd hlive ‹_›
  subst hend
  have hsplit : CancelEvent.reply (.ok answer) :: events =
      [] ++ .reply (.ok answer) :: events := rfl
  have hfilled : s₂.order? o.clientId = some b := by
    rw [← hid]
    exact hsame.register.here
  refine .intro hsplit rfl hs hfound hok rfl hfills₀ h.register.here hfilled ?_ ?_ hlater₀
    hsame'.agrees
  · rcases hb with rfl | hb
    · exact .refl b
    · exact hb.keeps
  · rw [← movedTo_canceled, ← hid']
    exact hsame'.register.there

theorem run?_step {t t₁ t' : Turn Cancelling Bool} (hstep : step? d t event = some t₁)
    (h : run? d t₁ events = some t') : run? d t (event :: events) = some t' := by
  rw [run?_cons, hstep]
  exact h

/-- What a cancel leaves behind, seen from one event before. -/
theorem Leaves.cons {t t₁ : Turn Cancelling Bool} {clientId : String}
    (hstep : step? d t event = some t₁)
    (hdesks : ∀ rest, s₀.afterAll? d (CancelEvent.desks (event :: rest)) =
      s₁.afterAll? d (CancelEvent.desks rest))
    (h : Leaves d order clientId s₁ t₁ events s' p) :
    Leaves d order clientId s₀ t (event :: events) s' p := by
  refine ⟨fun pause request w hp => ?_, fun hp => ?_, fun hp => ?_⟩
  · rw [hdesks]
    exact h.dropped pause request w hp
  · rw [hdesks]
    exact h.failed hp
  · obtain ⟨split, asked, signs, found, success, without, fills, stood, filled, kept, ended, later,
      others⟩ := h.succeeded hp
    exact .intro (congrArg (event :: ·) split) (run?_step hstep asked) signs found success
      ((hdesks _).trans without) fills stood filled kept ended later others

/-- What a cancel leaves behind that has failed and is taken back. -/
theorem leaves_failed {t : Turn Cancelling Bool} (h : DeskState.SameBut o o.state s₀ s)
    (hapart : ∀ e ∈ CancelEvent.desks events, e.clientId? ≠ some o.clientId)
    (hrun : run? d (s, .done false) events = some (s', p)) :
    Leaves d order o.clientId s₀ t events s' p := by
  obtain ⟨rfl, hlater⟩ := run?_over hrun rfl
  refine ⟨(fun _ _ _ hp => nomatch hp), fun _ => ?_, (fun hp => nomatch hp)⟩
  have hrest := h.afterAll d hapart
  rw [hlater] at hrest
  obtain ⟨s₁, hs, o', hsame, _⟩ := exists_of_rel_some hrest
  exact ⟨s₁, hs, hsame.agrees⟩

/-- What a cancel that waits leaves behind, however it goes on. -/
theorem leaves_waiting {pause : Nat} (h : DeskState.SameBut o state s₀ s)
    (hid : w.cancel.clientId = o.clientId) (hu : Undoable w.cancel.previous o state)
    (hasks : w.Asks d order request)
    (hapart : ∀ e ∈ CancelEvent.desks events, e.clientId? ≠ some o.clientId)
    (hrun : run? d (s, .ask pause request w) events = some (s', p)) :
    Leaves d order o.clientId s₀ (s, .ask pause request w) events s' p := by
  induction events generalizing s₀ s w o state pause request with
  | nil =>
    cases hrun
    refine ⟨fun pause request w hp => ?_, (fun hp => nomatch hp), (fun hp => nomatch hp)⟩
    cases hp
    exact ⟨s₀, rfl, (sameBut_restore h hid hu).agrees⟩
  | cons event events ih =>
    rw [run?_cons] at hrun
    obtain ⟨t₁, hstep, hrest⟩ := Option.bind_eq_some_iff.mp hrun
    cases event with
    | desk e =>
      have he : e.clientId? ≠ some o.clientId := hapart e List.mem_cons_self
      obtain ⟨s₁', hs', rfl⟩ := Option.map_eq_some_iff.mp hstep
      have hrel := undoable_after (d := d) he h hu
      rw [hs'] at hrel
      obtain ⟨s₁, hs, o', state', hsame, hid', hu'⟩ := exists_of_rel_some hrel
      have hleaves := ih hsame (hid.trans hid'.symm) hu' hasks
        (fun e he => hid' ▸ hapart e (List.mem_cons_of_mem _ he)) hrest
      rw [hid'] at hleaves
      refine hleaves.cons hstep fun rest => ?_
      exact DeskState.afterAll?_cons.trans (by rw [hs]; rfl)
    | reply r =>
      have hapart' : ∀ e ∈ CancelEvent.desks events, e.clientId? ≠ some o.clientId := hapart
      have hstep' : t₁ = w.resume d s r := (Option.some.inj hstep).symm
      have hgoes := goes_resume (s := s) hasks r
      rw [← hstep'] at hgoes
      cases hgoes with
      | waits alike cancel asks =>
        exact (ih (h.alike alike) (by rw [cancel]; exact hid) (by rw [cancel]; exact hu) asks
          hapart' hrest).cons hstep fun _ => rfl
      | fails alike =>
        exact (leaves_failed (sameBut_restore (h.alike alike) hid hu) hapart' hrest).cons hstep
          fun _ => rfl
      | halts =>
        obtain ⟨rfl, _⟩ := run?_over hrest rfl
        exact ⟨(fun _ _ _ hp => nomatch hp), (fun hp => nomatch hp), (fun hp => nomatch hp)⟩
      | succeeds signs asked answered found success fills =>
        obtain ⟨rfl, _⟩ := run?_over hrest rfl
        subst asked answered
        refine ⟨(fun _ _ _ hp => nomatch hp), (fun hp => nomatch hp), fun _ => ?_⟩
        rw [hid] at hrest
        exact succeeds_of_reply h hapart' signs found success fills hrest

/-- A cancel of a tracked order that comes to nothing, or is dropped at any moment, leaves the desk
as if it had never been tried, whatever else reaches the desk that is not about the order alone.
One that succeeds has seen its own transaction validated with success, keeps the fills that are
counted, and the order ends as canceled unless it has ended before. -/
theorem cancel_is_undone_or_final {a : Order} {clientId : String}
    (ha : s.order? clientId = some a)
    (hapart : ∀ e ∈ CancelEvent.desks events, e.clientId? ≠ some clientId)
    (hrun : run? d (start d s clientId order) events = some (s', p)) :
    Leaves d order clientId s (start d s clientId order) events s' p := by
  obtain rfl := OrderRegister.clientId_of_find? ha
  cases hn : order.sequence? with
  | none =>
    have hstart : start d s a.clientId order = (s, .done false) := by
      unfold start
      rw [hn]
    rw [hstart] at hrun ⊢
    exact leaves_failed (.refl ha) hapart hrun
  | some sequence =>
    obtain ⟨w, hstart, hcancel, hasks⟩ := start_of_order (d := d) hn ha
    obtain ⟨state, hsame, hu⟩ := undoable_start ha
    rw [hstart] at hrun ⊢
    exact leaves_waiting hsame (by rw [hcancel]) (by rw [hcancel]; exact hu) hasks hapart hrun

/-! A resting order is filled in part while a cancel of it waits, and then the connection breaks.
Another cancel of it gets through. -/

def signingDesk : Desk where
  signer := ⟨"rMe", fun t => .ok ⟨t, "B10B", "C0FFEE"⟩⟩
  config := default
  markets := RegisterStep.soloTrader.markets

def restingDesk : DeskState where
  register := OrderRegister.empty.track RegisterStep.restingOrder

def failingEvents : List CancelEvent :=
  [.desk (.message RegisterStep.partialFill), .reply (.error "connection reset by peer")]

def accountAnswer : Answer := .ofResult (.object [("account_data", .object [("Sequence", .ofNat 3)])])

def feeAnswer : Answer := .ofResult (.object [("drops", .object [("open_ledger_fee", .string "10")])])

def currentAnswer : Answer := .ofResult (.object [("ledger_current_index", .ofNat 8)])

def submitAnswer : Answer := .ofResult (.object [("engine_result", .string "tesSUCCESS")])

def canceledAnswer : Answer := .ofResult (.object [
  ("Account", .string "rMe"), ("TransactionType", .string "OfferCancel"), ("Sequence", .ofNat 3),
  ("OfferSequence", .ofNat 7), ("hash", .string "C0FFEE"), ("ledger_index", .ofNat 9),
  ("meta", .object [("AffectedNodes", .array []), ("TransactionResult", .string "tesSUCCESS")]),
  ("validated", .bool true)])

def succeedingEvents : List CancelEvent :=
  [.reply (.ok accountAnswer), .reply (.ok feeAnswer), .reply (.ok currentAnswer),
    .desk (.message RegisterStep.partialFill), .reply (.ok submitAnswer),
    .reply (.ok (LedgerHistory.indexAnswer 9)), .reply (.ok canceledAnswer)]

theorem leaves_of_two_cancels :
    (∃ s', run? signingDesk (start signingDesk restingDesk "1-1" RegisterStep.restingOrder)
        failingEvents = some (s', .done false) ∧
      s'.isIn "1-1" .partiallyFilled = true ∧
      Leaves signingDesk RegisterStep.restingOrder "1-1" restingDesk
        (start signingDesk restingDesk "1-1" RegisterStep.restingOrder) failingEvents s'
        (.done false)) ∧
    ∃ s', run? signingDesk (start signingDesk restingDesk "1-1" RegisterStep.restingOrder)
        succeedingEvents = some (s', .done true) ∧
      s'.isIn "1-1" .canceled = true ∧
      Leaves signingDesk RegisterStep.restingOrder "1-1" restingDesk
        (start signingDesk restingDesk "1-1" RegisterStep.restingOrder) succeedingEvents s'
        (.done true) := by
  have ha : restingDesk.order? "1-1" = some RegisterStep.restingOrder := by decide +kernel
  have hfailing : ∀ e ∈ CancelEvent.desks failingEvents, e.clientId? ≠ some "1-1" := by
    simp [CancelEvent.desks, failingEvents, CancelEvent.desk?, DeskEvent.clientId?]
  have hsucceeding : ∀ e ∈ CancelEvent.desks succeedingEvents, e.clientId? ≠ some "1-1" := by
    simp [CancelEvent.desks, succeedingEvents, CancelEvent.desk?, DeskEvent.clientId?]
  refine ⟨⟨_, rfl, ?_, cancel_is_undone_or_final ha hfailing rfl⟩,
    ⟨_, rfl, ?_, cancel_is_undone_or_final ha hsucceeding rfl⟩⟩
  · decide +kernel
  · decide +kernel

end Cancelling

end OfferDesk
