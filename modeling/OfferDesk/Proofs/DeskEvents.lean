-- What reaches a desk while some work waits for a reply: messages of the account stream, calls that
-- other work makes about orders, and new readings of the market. Whatever is not about an order
-- leaves it alone, or fills it, or ends it.
import OfferDesk.Proofs.Placing
import OfferDesk.Proofs.Shadows

namespace OfferDesk

/-- A transaction of the account stream, new terms, books and time, or a call about orders. -/
inductive DeskEvent where
  | message (o : Outcome)
  | reread (terms : TradingTerms) (books : Table String LiveBook) (now : Nat)
  | orders (call : RegisterCall)

/-- The one order that an event is about. A transaction may be about any. -/
def DeskEvent.clientId? : DeskEvent → Option String
  | orders call => call.clientId?
  | _ => none

namespace DeskState

/-- The desk after an event. There is none where an amount leaves the range of decimals. -/
def after? (d : Desk) (s : DeskState) : DeskEvent → Option DeskState
  | .message o => s.userOutcome? d o
  | .reread terms books now => some { s with terms := terms, books := books, now := now }
  | .orders call => do return { s with register := ← call.next? s.register }

/-- The desk after one event after another. -/
def afterAll? (d : Desk) (s : DeskState) (events : List DeskEvent) : Option DeskState :=
  events.foldlM (after? d) s

/-- The second desk knows the same as the first and has the same orders. -/
structure Agrees (s s' : DeskState) : Prop where
  terms : s'.terms = s.terms
  books : s'.books = s.books
  orders : ∀ clientId, s'.order? clientId = s.order? clientId

end DeskState

/-! ## What becomes of an order -/

namespace RegisterCall

variable {r r' : OrderRegister} {call : RegisterCall} {a : Order} {clientId : String}

/-- A call about one order sets what is under its id. -/
theorem sets_next (h : call.next? r = some r') (hcall : call.clientId? = some clientId) :
    ∃ w, OrderRegister.Sets clientId w r r' := by
  cases call with
  | step ctx step =>
    cases step with
    | takeIn t => cases hcall
    | move x state =>
      cases hcall
      cases h
      exact ⟨_, r.sets_move clientId state⟩
    | track o unassigned =>
      cases hcall
      cases h
      exact ⟨_, r.sets_track o⟩
    | untrack x =>
      cases hcall
      cases h
      exact ⟨_, r.sets_untrack clientId⟩
  | assign x id =>
    cases hcall
    simp only [next?] at h
    split at h
    · rename_i r₁ hr
      cases h
      obtain ⟨b, _, hsets⟩ := OrderRegister.sets_assign hr
      exact ⟨_, hsets⟩
    · cases h
      exact ⟨_, r.sets_self clientId⟩

/-- A call that is not about an order leaves it as it is, or is a transaction that reaches it. -/
theorem find?_of_next (h : call.next? r = some r') (hcall : call.clientId? ≠ some clientId)
    (hf : r.find? clientId = some a) :
    ∃ a', r'.find? clientId = some a' ∧ (a' = a ∨ a.Reaches a') := by
  cases hx : call.clientId? with
  | some x =>
    obtain ⟨w, hw⟩ := sets_next h hx
    have hne : clientId ≠ x := fun hid => hcall (hid ▸ hx)
    exact ⟨a, by rw [hw clientId, if_neg hne, hf], Or.inl rfl⟩
  | none =>
    cases call with
    | step ctx step =>
      cases step with
      | takeIn t =>
        obtain ⟨⟨_, events⟩, hp, rfl⟩ := Option.map_eq_some_iff.mp h
        exact Trader.find?_of_process hp hf
      | move x state => cases hx
      | track o unassigned => cases hx
      | untrack x => cases hx
    | assign x id => cases hx

end RegisterCall

namespace DeskState

variable {d : Desk} {s s' s₁ s₁' : DeskState} {e : DeskEvent} {events : List DeskEvent} {a o : Order}
  {t : Outcome} {state : OrderState} {clientId : String}

theorem afterAll?_cons : s.afterAll? d (e :: events) = (s.after? d e).bind (afterAll? d · events) :=
  List.foldlM_cons

theorem order?_of_applyFills (h : s.applyFills? d t = some s') (hf : s.order? clientId = some a) :
    ∃ a', s'.order? clientId = some a' ∧ (a' = a ∨ a.Reaches a') := by
  obtain ⟨rules, es, hp⟩ := process?_of_applyFills h
  exact Trader.find?_of_process hp hf

/-- An event that is not about an order leaves it as it is, or is a transaction that reaches it. -/
theorem order?_of_after (h : s.after? d e = some s') (he : e.clientId? ≠ some clientId)
    (hf : s.order? clientId = some a) :
    ∃ a', s'.order? clientId = some a' ∧ (a' = a ∨ a.Reaches a') := by
  cases e with
  | message o =>
    obtain ⟨rules, es, hp⟩ := process?_of_userOutcome h
    exact Trader.find?_of_process hp hf
  | reread terms books now =>
    cases h
    exact ⟨a, hf, Or.inl rfl⟩
  | orders call =>
    obtain ⟨r, hr, hs⟩ := Option.bind_eq_some_iff.mp h
    cases hs
    exact RegisterCall.find?_of_next hr he hf

theorem terms_move (s : DeskState) (clientId : String) (state : OrderState) :
    (s.move clientId state).terms = s.terms := by
  unfold move
  split <;> rfl

theorem books_move (s : DeskState) (clientId : String) (state : OrderState) :
    (s.move clientId state).books = s.books := by
  unfold move
  split <;> rfl

/-! ## Two desks but for one state -/

/-- The second desk knows the same and has the same orders, but that one of them may be in another
state. -/
structure Shadows (o : Order) (state : OrderState) (s s' : DeskState) : Prop where
  terms : s'.terms = s.terms
  books : s'.books = s.books
  register : s.register.Shadows o state s'.register

/-- The second desk knows the same and has the same orders, but that one of them is in the given
state. -/
structure SameBut (o : Order) (state : OrderState) (s s' : DeskState) : Prop where
  terms : s'.terms = s.terms
  books : s'.books = s.books
  register : s.register.SameBut o state s'.register

namespace Shadows

theorem patchBooks (t : Outcome) (h : Shadows o state s s') :
    Option.Rel (Shadows o state) (s.patchBooks? t) (s'.patchBooks? t) := by
  unfold patchBooks?
  rw [h.books]
  cases s.books.map? fun b => (b.applyOutcome? t).map (·.1) with
  | none => exact .none
  | some books => exact .some ⟨h.terms, rfl, h.register⟩

theorem applyFills (d : Desk) (t : Outcome) (hs : state.isTerminal = o.state.isTerminal)
    (h : Shadows o state s s') :
    Option.Rel (Shadows o state) (s.applyFills? d t) (s'.applyFills? d t) := by
  unfold applyFills?
  rw [h.terms]
  have hp := h.register.process ⟨d.account, d.markets, s.terms.feeRules⟩ t hs
  generalize Trader.process? _ t s.register = x at hp ⊢
  generalize Trader.process? _ t s'.register = y at hp ⊢
  cases x <;> cases y <;> cases hp
  · exact .none
  · rename_i hp
    exact .some ⟨rfl, h.books, hp⟩

/-- An event about no order, or about another one, leaves two such desks so, or gives no result for
both. -/
theorem after (d : Desk) (hs : state.isTerminal = o.state.isTerminal)
    (he : e.clientId? ≠ some o.clientId) (h : Shadows o state s s') :
    Option.Rel (Shadows o state) (s.after? d e) (s'.after? d e) := by
  cases e with
  | message t =>
    simp only [after?, userOutcome?, Option.bind_eq_bind]
    exact rel_bind (h.patchBooks t) fun _ _ hp => hp.applyFills d t hs
  | reread terms books now => exact .some ⟨rfl, rfl, h.register⟩
  | orders call =>
    simp only [after?, Option.bind_eq_bind]
    exact rel_bind (h.register.next hs he) fun _ _ hp => .some ⟨h.terms, h.books, hp⟩

end Shadows

namespace SameBut

theorem refl (h : s.order? clientId = some o) : SameBut o o.state s s := ⟨rfl, rfl, .refl h⟩

theorem shadows (h : SameBut o state s s') : Shadows o state s s' :=
  ⟨h.terms, h.books, h.register.shadows⟩

theorem agrees (h : SameBut o o.state s s') : s.Agrees s' := ⟨h.terms, h.books, h.register.same⟩

theorem there (h : SameBut o state s s') :
    s'.order? o.clientId = some { o with state := state } :=
  h.register.there

theorem move {next : OrderState} (h : SameBut o state s s') (hn : next.isTerminal = false) :
    SameBut o (if state.canMoveTo next then next else state) s (s'.move o.clientId next) where
  terms := (terms_move s' o.clientId next).trans h.terms
  books := (books_move s' o.clientId next).trans h.books
  register := by
    rw [register_move]
    exact h.register.move hn

theorem move_terminal {next : OrderState} (h : SameBut o state s s') (hn : next.isTerminal = true) :
    SameBut (o.movedTo next) (o.movedTo next).state (s.move o.clientId next)
      (s'.move o.clientId next) where
  terms := by rw [terms_move, terms_move, h.terms]
  books := by rw [books_move, books_move, h.books]
  register := by
    rw [register_move, register_move]
    exact h.register.move_terminal hn

/-- What has become of desks that differed in the state of an order, with the order of the first:
they differ no more, or they differ so still. -/
def Becomes (o : Order) (state : OrderState) (s s' : DeskState) : Prop :=
  ∃ o' state', SameBut o' state' s s' ∧ o'.clientId = o.clientId ∧ (o' = o ∨ o.Reaches o') ∧
    (state' = o'.state ∨ o' = o ∧ state' = state)

theorem becomes (h : SameBut o state s s') (h₁ : Shadows o state s₁ s₁')
    (hf : s₁.order? o.clientId = some a) (ha : a = o ∨ o.Reaches a) : Becomes o state s₁ s₁' := by
  rcases h.register.of_shadows h₁.register hf with hsame | hsame
  · exact ⟨a, a.state, ⟨h₁.terms, h₁.books, hsame⟩, OrderRegister.clientId_of_find? hf, ha,
      Or.inl rfl⟩
  · exact ⟨o, state, ⟨h₁.terms, h₁.books, hsame⟩, rfl, Or.inl rfl, Or.inr ⟨rfl, rfl⟩⟩

theorem rel_becomes {x y : Option DeskState} (h : SameBut o state s s')
    (hrel : Option.Rel (Shadows o state) x y) (hx : ∀ s₁, x = some s₁ →
      ∃ a, s₁.order? o.clientId = some a ∧ (a = o ∨ o.Reaches a)) :
    Option.Rel (Becomes o state) x y := by
  refine rel_imp hrel fun s₁ s₁' hs₁ _ h₁ => ?_
  obtain ⟨a, hf, ha⟩ := hx s₁ hs₁
  exact h.becomes h₁ hf ha

/-- The fills of a transaction. -/
theorem applyFills (d : Desk) (t : Outcome) (h : SameBut o state s s') :
    Option.Rel (Becomes o state) (s.applyFills? d t) (s'.applyFills? d t) :=
  h.rel_becomes (h.shadows.applyFills d t h.register.isTerminal_eq) fun _ hs =>
    order?_of_applyFills hs h.register.here

/-- An event about no order, or about another one. -/
theorem after (d : Desk) (he : e.clientId? ≠ some o.clientId) (h : SameBut o state s s') :
    Option.Rel (Becomes o state) (s.after? d e) (s'.after? d e) :=
  h.rel_becomes (h.shadows.after d h.register.isTerminal_eq he) fun _ hs =>
    order?_of_after hs he h.register.here

/-- Events about no order, or about other ones, leave desks alike that differ in nothing. -/
theorem afterAll (d : Desk) (hapart : ∀ e ∈ events, e.clientId? ≠ some o.clientId)
    (h : SameBut o o.state s s') :
    Option.Rel (fun s₁ s₁' => ∃ o', SameBut o' o'.state s₁ s₁' ∧ o'.clientId = o.clientId ∧
      (o' = o ∨ o.Reaches o')) (s.afterAll? d events) (s'.afterAll? d events) := by
  refine rel_foldlM events ⟨o, h, rfl, Or.inl rfl⟩ fun e he s₁ s₁' ⟨o₁, h₁, hid, ho⟩ => ?_
  apply rel_imp (h₁.after d (hid ▸ hapart e he))
  rintro s₂ s₂' _ _ ⟨o₂, state', hsame, hid₂, ho₂, hstate⟩
  have hstate' : state' = o₂.state := by
    rcases hstate with rfl | ⟨rfl, rfl⟩ <;> rfl
  subst hstate'
  exact ⟨o₂, hsame, hid₂.trans hid, Order.eq_or_reaches_trans ho ho₂⟩

end SameBut

end DeskState

end OfferDesk
