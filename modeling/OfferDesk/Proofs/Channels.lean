-- A fill counts once, whichever way it comes. While a placement polls for its transaction, the
-- account stream brings the same transaction, and others that take from its offer later. Wherever
-- among them the poll comes to its end, the order ends up the same, with the same trades.
import OfferDesk.Proofs.SingleOrders

namespace OfferDesk

open OrderEvent (tradesOf)

/-! ## Transactions that come more than once -/

namespace OrderRegister

variable {r r' : OrderRegister} {n : UInt32}

/-- The live orders carry no other sequence than one. -/
def CarriesOnly (n : UInt32) (r : OrderRegister) : Prop := ∀ m, ∀ o ∈ r.carrying m, m = n

theorem Descends.carriesOnly (h : r.Descends r') (hr : r.CarriesOnly n) : r'.CarriesOnly n := by
  intro m o ho
  obtain ⟨a, ha, _⟩ := h.mem_carrying ho
  exact hr m a ha

theorem carriesOnly_of_one {a : Order} (hn : a.sequence? = some n) :
    (empty.track a).CarriesOnly n := by
  intro m o ho
  obtain ⟨hfind, _, hm⟩ := mem_carrying.mp ho
  rw [find?_track] at hfind
  split at hfind
  · obtain rfl := Option.some.inj hfind
    exact Option.some.inj (hm.symm.trans hn)
  · cases hfind

end OrderRegister

namespace Trader

variable {ctx : Trader} {t : Outcome} {r r' r'' : OrderRegister} {n : UInt32}
  {events : List OrderEvent} {ts ts' : List Outcome}

/-- A transaction that names none of the sequences does nothing. -/
theorem Effect.of_unnamed (h : ctx.Effect t r r' events) (hr : r.CarriesOnly n)
    (hn : ¬t.Names ctx.account n) : r' = r ∧ events = [] := by
  induction h with
  | nothing r => exact ⟨rfl, rfl⟩
  | ends named found _ _ =>
    rw [hr _ _ (OrderRegister.mem_carrying_of_resolve? found)] at named
    exact absurd named hn
  | counts named _ _ found _ _ _ =>
    rw [hr _ _ (OrderRegister.mem_carrying_of_resolve? found)] at named
    exact absurd named hn
  | andThen _ _ ih ih' =>
    obtain ⟨rfl, rfl⟩ := ih hr
    obtain ⟨rfl, rfl⟩ := ih' hr
    exact ⟨rfl, rfl⟩

/-- Takes in one transaction after another, under the same rules. -/
def takeAll? (ctx : Trader) (r : OrderRegister) : List Outcome → Option Reported
  | [] => some (r, [])
  | t :: ts => do
    let (r, first) ← ctx.process? t r
    let (r, rest) ← takeAll? ctx r ts
    return (r, first ++ rest)

theorem takeAll?_cons_iff : ctx.takeAll? r (t :: ts) = some (r'', events) ↔
    ∃ r' first rest, ctx.process? t r = some (r', first) ∧
      ctx.takeAll? r' ts = some (r'', rest) ∧ events = first ++ rest := by
  simp only [takeAll?, Option.bind_eq_bind, Option.bind_eq_some_iff, Option.pure_def,
    Option.some.injEq, Prod.mk.injEq, Prod.exists]
  constructor
  · rintro ⟨r', first, hfirst, _, rest, hrest, rfl, rfl⟩
    exact ⟨r', first, rest, hfirst, hrest, rfl⟩
  · rintro ⟨r', first, rest, hfirst, hrest, rfl⟩
    exact ⟨r', first, hfirst, r'', rest, hrest, rfl, rfl⟩

theorem takeAll?_append_iff : ctx.takeAll? r (ts ++ ts') = some (r'', events) ↔
    ∃ r' first rest, ctx.takeAll? r ts = some (r', first) ∧
      ctx.takeAll? r' ts' = some (r'', rest) ∧ events = first ++ rest := by
  induction ts generalizing r events with
  | nil =>
    constructor
    · exact fun h => ⟨r, [], events, rfl, h, rfl⟩
    · rintro ⟨_, _, rest, h, hrest, rfl⟩
      cases h
      exact hrest
  | cons t ts ih =>
    simp only [List.cons_append, takeAll?_cons_iff, ih]
    constructor
    · rintro ⟨r₁, first, _, hfirst, ⟨r₂, mid, rest, hmid, hrest, rfl⟩, rfl⟩
      exact ⟨r₂, _, rest, ⟨r₁, first, mid, hfirst, hmid, rfl⟩, hrest, (List.append_assoc ..).symm⟩
    · rintro ⟨r₂, _, rest, ⟨r₁, first, mid, hfirst, hmid, rfl⟩, hrest, rfl⟩
      exact ⟨r₁, first, _, hfirst, ⟨r₂, mid, rest, hmid, hrest, rfl⟩, List.append_assoc ..⟩

theorem advances_takeAll (h : ctx.takeAll? r ts = some (r', events)) : r.Advances r' := by
  induction ts generalizing r events with
  | nil =>
    cases h
    exact .refl _
  | cons t ts ih =>
    obtain ⟨r₁, first, rest, hfirst, hrest, _⟩ := takeAll?_cons_iff.mp h
    exact (effect_process hfirst).advances.trans (ih hrest)

/-- A transaction has nothing left to do at a register, whatever becomes of that. -/
def Spent (ctx : Trader) (r : OrderRegister) (t : Outcome) : Prop :=
  ∀ x x' events, r.Descends x → ctx.process? t x = some (x', events) → x' = x ∧ events = []

theorem Spent.later (h : ctx.Spent r t) (hr : r.Descends r') : ctx.Spent r' t :=
  fun x x' events hx => h x x' events (hr.trans hx)

theorem spent_of_unnamed (hr : r.CarriesOnly n) (hn : ¬t.Names ctx.account n) :
    ctx.Spent r t := by
  intro x x' events hx hprocess
  exact (effect_process hprocess).of_unnamed (hx.carriesOnly hr) hn

theorem spent_of_taken (hr : r.OneLivePerSequence) (h : ctx.process? t r = some (r', events)) :
    ctx.Spent r' t := by
  intro x x' events' hx hprocess
  have hsettled := ctx.settles_process t r r' events x hr h (effect_process h).advances hx
  obtain ⟨rfl, rfl⟩ := Prod.mk.inj (Option.some.inj (hprocess.symm.trans hsettled))
  exact ⟨rfl, rfl⟩

end Trader

/-- Messages bring the transactions of a ledger in their order, each at least once: a message is the
next transaction, or one that was seen before. -/
inductive Delivers : List Outcome → List Outcome → List Outcome → Prop where
  | done {seen : List Outcome} : Delivers seen [] []
  | next {t : Outcome} {seen ledger messages : List Outcome}
    (rest : Delivers (t :: seen) ledger messages) : Delivers seen (t :: ledger) (t :: messages)
  | again {t : Outcome} {seen ledger messages : List Outcome} (mem : t ∈ seen)
    (rest : Delivers seen ledger messages) : Delivers seen ledger (t :: messages)

namespace Delivers

variable {ctx : Trader} {t : Outcome} {r r' : OrderRegister} {events : List OrderEvent}
  {seen seen' before ledger messages ts ts' : List Outcome}

/-- A transaction that was seen may come again at any time. -/
theorem insert (h : Delivers seen ledger (ts ++ ts')) (ht : t ∈ seen) :
    Delivers seen ledger (ts ++ t :: ts') := by
  induction ts generalizing seen ledger with
  | nil => exact .again ht h
  | cons x ts ih =>
    cases h with
    | next rest => exact .next (ih rest (List.mem_cons_of_mem _ ht))
    | again mem rest => exact .again mem (ih rest ht)

/-- The first transactions of a ledger may count as seen. -/
theorem skip (h : Delivers seen (before ++ ledger) messages) (hseen : seen ⊆ seen')
    (hbefore : before ⊆ seen') : Delivers seen' ledger messages := by
  generalize hl : before ++ ledger = l at h
  induction h generalizing before ledger seen' with
  | done =>
    obtain ⟨rfl, rfl⟩ := List.append_eq_nil_iff.mp hl
    exact .done
  | @next x seen l messages rest ih =>
    cases before with
    | nil =>
      obtain rfl : ledger = x :: l := hl
      exact .next (ih (List.cons_subset_cons x hseen) (List.nil_subset _) (List.nil_append l))
    | cons y before =>
      obtain ⟨rfl, rfl⟩ := List.cons.inj hl
      obtain ⟨hy, hbefore⟩ := List.cons_subset.mp hbefore
      exact .again hy (ih (List.cons_subset.mpr ⟨hy, hseen⟩) hbefore rfl)
  | again mem rest ih => exact .again (hseen mem) (ih hseen hbefore hl)

/-- What comes again does nothing, so the messages do what each transaction of the ledger does
once. -/
theorem taken (h : Delivers seen ledger messages) (hr : r.OneLivePerSequence)
    (hseen : ∀ x ∈ seen, ctx.Spent r x) (htake : ctx.takeAll? r messages = some (r', events)) :
    ctx.takeAll? r ledger = some (r', events) := by
  induction h generalizing r events with
  | done => exact htake
  | @next x seen ledger messages rest ih =>
    obtain ⟨r₁, first, later, hfirst, hlater, rfl⟩ := Trader.takeAll?_cons_iff.mp htake
    have hdescends := (Trader.effect_process hfirst).advances.descends
    have hseen₁ : ∀ y ∈ x :: seen, ctx.Spent r₁ y := by
      intro y hy
      rcases List.mem_cons.mp hy with rfl | hy
      · exact Trader.spent_of_taken hr hfirst
      · exact (hseen y hy).later hdescends
    exact Trader.takeAll?_cons_iff.mpr
      ⟨r₁, first, later, hfirst, ih (hdescends.oneLivePerSequence hr) hseen₁ hlater, rfl⟩
  | again mem rest ih =>
    obtain ⟨r₁, first, later, hfirst, hlater, rfl⟩ := Trader.takeAll?_cons_iff.mp htake
    obtain ⟨rfl, rfl⟩ := hseen _ mem r r₁ first (.refl r) hfirst
    exact ih hr hseen hlater

/-- The next transaction may also come by another way, anywhere among the messages. -/
theorem taken_beside (h : Delivers seen (t :: ledger) (ts ++ ts')) (hr : r.OneLivePerSequence)
    (hseen : ∀ x ∈ seen, ctx.Spent r x)
    (htake : ctx.takeAll? r (ts ++ t :: ts') = some (r', events)) :
    ctx.takeAll? r (t :: ledger) = some (r', events) := by
  induction ts generalizing events with
  | nil =>
    -- it comes by the other way first, so it is the message that brings it again
    have hseen' : Delivers seen ([t] ++ ledger) ts' := h
    exact taken (.next (hseen'.skip (List.subset_cons_self t seen)
      (List.cons_subset_cons t (List.nil_subset seen)))) hr hseen htake
  | cons x ts ih =>
    cases h with
    | next rest => exact taken (.next (rest.insert List.mem_cons_self)) hr hseen htake
    | again mem rest =>
      obtain ⟨r₁, first, later, hfirst, hlater, rfl⟩ := Trader.takeAll?_cons_iff.mp htake
      obtain ⟨rfl, rfl⟩ := hseen _ mem r r₁ first (.refl r) hfirst
      exact ih rest hlater

end Delivers

/-! ## Orders that were opened -/

namespace OrderRegister

variable {r r' l : OrderRegister} {a : Order} {clientId : String}

/-- The order under a client id has left its first state. -/
def Begun (clientId : String) (r : OrderRegister) : Prop :=
  ∀ a, r.find? clientId = some a → a.state ≠ .pendingCreate

theorem Advances.begun (h : r.Advances r') (hr : r.Begun clientId) : r'.Begun clientId := by
  intro a' ha' hs
  obtain ⟨a, ha, hadvances⟩ := h.backward ha'
  exact hr a ha (hadvances.begun hs)

theorem OneLivePerSequence.sole (h : r.OneLivePerSequence) : r.Sole clientId := by
  intro n o ho hid a ha
  rw [h n a ha o ho, hid]

theorem Isolates.elsewhere (h : Isolates clientId r l) (hs : r'.Sole clientId)
    (hsame : r'.find? clientId = r.find? clientId) : Isolates clientId r' l := by
  obtain ⟨a, b, ha, hb, hab⟩ := h.order
  exact ⟨hs, ⟨a, b, hsame.trans ha, hb, hab⟩, h.only⟩

/-- An order that is opened in the first register is isolated still. -/
theorem Isolates.open (h : Isolates clientId r l) (ha : r.find? clientId = some a)
    (hs : a.state = .pendingCreate) :
    Isolates clientId (r.move clientId .opened) l ∧ (r.move clientId .opened).Begun clientId := by
  obtain ⟨_, b, hf, hb, hab⟩ := h.order
  obtain rfl := Option.some.inj (ha.symm.trans hf)
  have hopened : a.movedTo .opened = a.opened := by
    rw [Order.movedTo, Order.opened, if_pos hs, hs]
    rfl
  have hstate : a.opened.state = .opened := by rw [Order.opened, if_pos hs]
  have hfind : (r.move clientId .opened).find? clientId = some a.opened := by
    rw [r.sets_move clientId .opened clientId, if_pos rfl, ha, Option.map_some, hopened]
  refine ⟨⟨(advances_move r clientId .opened).descends.sole h.sole,
    ⟨a.opened, b, hfind, hb, ?_⟩, h.only⟩, fun c hc => ?_⟩
  · rw [Order.opened_of_begun (by rw [hstate]; decide), hab]
  · obtain rfl := Option.some.inj (hfind.symm.trans hc)
    rw [hstate]
    decide

end OrderRegister

/-! ## What reaches the desk while a placement polls -/

/-- A reply to the placement, or anything else that reaches the desk. -/
inductive PollEvent where
  | reply (r : Reply)
  | desk (e : DeskEvent)

namespace PollEvent

def reply? : PollEvent → Option Reply
  | reply r => some r
  | desk _ => none

/-- The transaction that the account stream brings. -/
def message? : PollEvent → Option Outcome
  | desk (.message t) => some t
  | _ => none

def replies (events : List PollEvent) : List Reply := events.filterMap (·.reply?)

def messages (events : List PollEvent) : List Outcome := events.filterMap (·.message?)

theorem messages_cons (event : PollEvent) (events : List PollEvent) :
    messages (event :: events) = event.message?.toList ++ messages events := by
  rw [messages, List.filterMap_cons]
  cases event.message? <;> rfl

/-- Whether an event leaves an order to its placement and to the stream. The fee rules stay, no
call is about the order, and no other work takes in a transaction that names its sequence. -/
def Apart (rules : Table String FeeRule) (clientId : String) (n : UInt32) : PollEvent → Prop
  | desk (.reread terms _ _) => terms.feeRules = rules
  | desk (.orders call) => call.clientId? ≠ some clientId ∧
    ∀ ctx t, call = .step ctx (.takeIn t) → ¬t.Names ctx.account n
  | _ => True

/-- The desk and the placement after an event. A reply that nobody waits for does nothing, and there
is no result where an amount leaves the range of decimals. -/
def step? (d : Desk) (t : Turn Placing Placing.Result) :
    PollEvent → Option (Turn Placing Placing.Result)
  | .reply r =>
    match t.2 with
    | .ask _ _ w => some (w.resume d t.1 r)
    | _ => some t
  | .desk e => (t.1.after? d e).map (·, t.2)

/-- The desk and the placement after one event after another. -/
def run? (d : Desk) (t : Turn Placing Placing.Result) (events : List PollEvent) :
    Option (Turn Placing Placing.Result) :=
  events.foldlM (step? d) t

theorem run?_cons {d : Desk} {event : PollEvent} {events : List PollEvent}
    (t : Turn Placing Placing.Result) :
    run? d t (event :: events) = (step? d t event).bind (run? d · events) :=
  List.foldlM_cons

end PollEvent

/-! ## How a desk follows an order by itself -/

namespace DeskState

variable {d : Desk} {rules : Table String FeeRule} {s s' s'' : DeskState}
  {l l' l'' : OrderRegister} {clientId : String} {n : UInt32} {t : Outcome} {ts ts' : List Outcome}

theorem tradesOf_move (s : DeskState) (x : String) (state : OrderState) :
    tradesOf clientId (s.move x state).events = tradesOf clientId s.events := by
  unfold move
  split
  · exact (OrderEvent.tradesOf_append ..).trans (List.append_nil _)
  · rfl

/-- What has become of an order at a desk is what some transactions make of the order by itself,
with the same trades. -/
structure Follows (d : Desk) (rules : Table String FeeRule) (clientId : String) (ts : List Outcome)
    (s : DeskState) (l : OrderRegister) (s' : DeskState) (l' : OrderRegister) : Prop where
  feeRules : s'.terms.feeRules = rules
  isolates : s'.register.Isolates clientId l'
  begun : s.register.Begun clientId → s'.register.Begun clientId
  trades : ∃ events, (Trader.mk d.account d.markets rules).takeAll? l ts = some (l', events) ∧
    tradesOf clientId s'.events = tradesOf clientId s.events ++ tradesOf clientId events

namespace Follows

theorem refl (hrules : s.terms.feeRules = rules) (h : s.register.Isolates clientId l) :
    Follows d rules clientId [] s l s l :=
  ⟨hrules, h, id, [], rfl, (List.append_nil _).symm⟩

theorem trans (h : Follows d rules clientId ts s l s' l')
    (h' : Follows d rules clientId ts' s' l' s'' l'') :
    Follows d rules clientId (ts ++ ts') s l s'' l'' := by
  obtain ⟨first, hfirst, htrades⟩ := h.trades
  obtain ⟨rest, hrest, htrades'⟩ := h'.trades
  refine ⟨h'.feeRules, h'.isolates, fun hb => h'.begun (h.begun hb), first ++ rest,
    Trader.takeAll?_append_iff.mpr ⟨l', first, rest, hfirst, hrest, rfl⟩, ?_⟩
  rw [htrades', htrades, OrderEvent.tradesOf_append, List.append_assoc]

theorem carriesOnly (h : Follows d rules clientId ts s l s' l') (hl : l.CarriesOnly n) :
    l'.CarriesOnly n := by
  obtain ⟨events, hevents, _⟩ := h.trades
  exact (Trader.advances_takeAll hevents).descends.carriesOnly hl

end Follows

/-- A transaction that is taken in. -/
theorem follows_applyFills (hrules : s.terms.feeRules = rules)
    (h : s.register.Isolates clientId l) (hfills : s.applyFills? d t = some s') :
    ∃ l', Follows d rules clientId [t] s l s' l' := by
  subst hrules
  simp only [applyFills?, Option.bind_eq_bind, Option.bind_eq_some_iff, Option.pure_def,
    Option.some.injEq, Prod.exists] at hfills
  obtain ⟨register, events, hprocess, rfl⟩ := hfills
  obtain ⟨l', events', hprocess', h', htrades⟩ := h.process hprocess
  refine ⟨l', rfl, h', (Trader.effect_process hprocess).advances.begun, events', ?_, ?_⟩
  · exact Trader.takeAll?_cons_iff.mpr ⟨l', events', [], hprocess', rfl, (List.append_nil _).symm⟩
  · rw [htrades]
    exact OrderEvent.tradesOf_append ..

theorem follows_message (hrules : s.terms.feeRules = rules) (h : s.register.Isolates clientId l)
    (hs : s.userOutcome? d t = some s') : ∃ l', Follows d rules clientId [t] s l s' l' := by
  simp only [userOutcome?, patchBooks?, Option.bind_eq_bind, Option.bind_eq_some_iff,
    Option.pure_def, Option.some.injEq] at hs
  obtain ⟨_, ⟨books, _, rfl⟩, hfills⟩ := hs
  obtain ⟨l', hfollows⟩ := follows_applyFills (s := { s with books := books }) hrules h hfills
  exact ⟨l', hfollows.feeRules, hfollows.isolates, hfollows.begun, hfollows.trades⟩

/-- A call of other work that leaves the order alone. -/
theorem follows_call {call : RegisterCall} {r' : OrderRegister} (hrules : s.terms.feeRules = rules)
    (h : s.register.Isolates clientId l) (hl : l.CarriesOnly n)
    (hapart : call.clientId? ≠ some clientId ∧
      ∀ ctx t, call = .step ctx (.takeIn t) → ¬t.Names ctx.account n)
    (hr : call.next? s.register = some r') :
    Follows d rules clientId [] s l { s with register := r' } l := by
  have hkept : r'.Isolates clientId l ∧ (s.register.Begun clientId → r'.Begun clientId) := by
    cases hx : call.clientId? with
    | some x =>
      obtain ⟨w, hw⟩ := RegisterCall.sets_next hr hx
      have hne : clientId ≠ x := fun hid => hapart.1 (hid ▸ hx)
      have hsame : r'.find? clientId = s.register.find? clientId := by rw [hw, if_neg hne]
      exact ⟨h.elsewhere ((RegisterCall.spares_next hr).sole _ h.sole) hsame,
        fun hb a ha => hb a (hsame ▸ ha)⟩
    | none =>
      cases call with
      | assign x id => cases hx
      | step ctx step =>
        cases step with
        | move x state => cases hx
        | track o unassigned => cases hx
        | untrack x => cases hx
        | takeIn t =>
          obtain ⟨⟨_, events⟩, hprocess, rfl⟩ := Option.map_eq_some_iff.mp hr
          obtain ⟨l', events', hprocess', h', _⟩ := h.process hprocess
          obtain ⟨rfl, _⟩ :=
            (Trader.effect_process hprocess').of_unnamed hl (hapart.2 ctx t rfl)
          exact ⟨h', (Trader.effect_process hprocess).advances.begun⟩
  exact ⟨hrules, hkept.1, hkept.2, [], rfl, (List.append_nil _).symm⟩

/-- Whatever reaches the desk otherwise, what becomes of the order is what the stream brings. -/
theorem follows_after {e : DeskEvent} (hrules : s.terms.feeRules = rules)
    (h : s.register.Isolates clientId l) (hl : l.CarriesOnly n)
    (hapart : (PollEvent.desk e).Apart rules clientId n) (hs : s.after? d e = some s') :
    ∃ l', Follows d rules clientId (PollEvent.desk e).message?.toList s l s' l' := by
  cases e with
  | message t => exact follows_message hrules h hs
  | reread terms books now =>
    cases hs
    exact ⟨l, hapart, h, id, [], rfl, (List.append_nil _).symm⟩
  | orders call =>
    obtain ⟨r', hr, hs⟩ := Option.bind_eq_some_iff.mp hs
    cases hs
    exact ⟨l, follows_call hrules h hl hapart hr⟩

/-- The order of the desk is opened, if it still is in its first state. -/
theorem follows_open (hrules : s.terms.feeRules = rules) (h : s.register.Isolates clientId l) :
    ∃ s', (if s.isIn clientId .pendingCreate then s.move clientId .opened else s) = s' ∧
      Follows d rules clientId [] s l s' l ∧ s'.register.Begun clientId := by
  refine ⟨_, rfl, ?_⟩
  split
  · rename_i hin
    obtain ⟨a, ha, hstate⟩ : ∃ a, s.order? clientId = some a ∧ a.state = .pendingCreate := by
      simpa [isIn] using hin
    obtain ⟨h', hb⟩ := h.open ha hstate
    rw [← register_move] at h' hb
    refine ⟨⟨by rw [terms_move, hrules], h', fun _ => hb, [], rfl, ?_⟩, hb⟩
    rw [tradesOf_move]
    exact (List.append_nil _).symm
  · rename_i hin
    refine ⟨.refl hrules h, fun a ha hstate => hin ?_⟩
    have hthere : s.order? clientId = some a := ha
    simp [isIn, hthere, hstate]

end DeskState

/-! ## Whole runs -/

namespace PollEvent

open DeskState (Follows)

variable {d : Desk} {rules : Table String FeeRule} {s s' : DeskState} {l : OrderRegister}
  {p p' : Progress Placing Placing.Result} {w : Placing} {o : PlaceOrder} {id : ExchangeId}
  {text : String} {n : UInt32} {t : Outcome} {events : List PollEvent}

/-- Nothing changes the result of a placement. -/
theorem run?_over (h : run? d (s, p) events = some (s', p')) (hover : Placing.isOver p = true) :
    p' = p := by
  induction events generalizing s with
  | nil =>
    cases h
    rfl
  | cons event events ih =>
    rw [run?_cons] at h
    cases event with
    | reply r =>
      cases p with
      | ask pause request w => cases hover
      | done result => exact ih h
      | halted => exact ih h
    | desk e =>
      obtain ⟨_, hstep, h⟩ := Option.bind_eq_some_iff.mp h
      obtain ⟨s₁, _, rfl⟩ := Option.map_eq_some_iff.mp hstep
      exact ih h

/-- After the end of a placement the order follows the stream alone. -/
theorem follows_over (h : run? d (s, p) events = some (s', p')) (hover : Placing.isOver p = true)
    (hrules : s.terms.feeRules = rules) (hi : s.register.Isolates clientId l)
    (hl : l.CarriesOnly n) (hapart : ∀ e ∈ events, e.Apart rules clientId n) :
    ∃ l', Follows d rules clientId (messages events) s l s' l' := by
  induction events generalizing s l with
  | nil =>
    cases h
    exact ⟨l, .refl hrules hi⟩
  | cons event events ih =>
    rw [run?_cons] at h
    have hlater : ∀ e ∈ events, e.Apart rules clientId n :=
      fun e he => hapart e (List.mem_cons_of_mem _ he)
    cases event with
    | reply r =>
      cases p with
      | ask pause request w => cases hover
      | done result => exact ih h hrules hi hl hlater
      | halted => exact ih h hrules hi hl hlater
    | desk e =>
      obtain ⟨_, hstep, h⟩ := Option.bind_eq_some_iff.mp h
      obtain ⟨s₁, hs, rfl⟩ := Option.map_eq_some_iff.mp hstep
      obtain ⟨l₁, hfirst⟩ :=
        DeskState.follows_after hrules hi hl (hapart _ List.mem_cons_self) hs
      obtain ⟨l', hrest⟩ := ih h hfirst.feeRules hfirst.isolates (hfirst.carriesOnly hl) hlater
      refine ⟨l', ?_⟩
      rw [messages_cons]
      exact hfirst.trans hrest

/-- A placement that succeeds takes its transaction in, and leaves its order opened. -/
theorem follows_finish
    (h : run? d (Placing.finish d o id s (.validated t)) events = some (s', .done (.ok text)))
    (hrules : s.terms.feeRules = rules) (hi : s.register.Isolates o.clientId l)
    (hl : l.CarriesOnly n) (hapart : ∀ e ∈ events, e.Apart rules o.clientId n) :
    ∃ l', Follows d rules o.clientId (t :: messages events) s l s' l' ∧
      s'.register.Begun o.clientId := by
  simp only [Placing.finish, Finality.verdict] at h
  by_cases hok : t.isSuccess = true
  · simp only [if_pos hok] at h
    cases hfills : s.applyFills? d t with
    | none =>
      rw [hfills] at h
      cases run?_over h rfl
    | some s₁ =>
      rw [hfills] at h
      obtain ⟨l₁, hfirst⟩ := DeskState.follows_applyFills hrules hi hfills
      obtain ⟨s₂, hs₂, hopen, hbegun⟩ :=
        DeskState.follows_open (d := d) hfirst.feeRules hfirst.isolates
      simp only [hs₂] at h
      obtain ⟨l', hrest⟩ :=
        follows_over h rfl hopen.feeRules hopen.isolates (hfirst.carriesOnly hl) hapart
      exact ⟨l', (hfirst.trans hopen).trans hrest, hrest.begun hbegun⟩
  · simp only [if_neg hok] at h
    cases run?_over h rfl

/-- A placement that succeeds in the end takes its transaction in somewhere among the messages of
the stream, and leaves its order opened. -/
theorem follows_poll {pause : Nat} {request : Request} (hw : w.stage.isSubmitted = true)
    (h : run? d (s, .ask pause request w) events = some (s', .done (.ok text)))
    (hv : w.finality? d (replies events) = some (.validated t))
    (hrules : s.terms.feeRules = rules) (hi : s.register.Isolates w.order.clientId l)
    (hl : l.CarriesOnly n) (hapart : ∀ e ∈ events, e.Apart rules w.order.clientId n) :
    ∃ before after l', messages events = before ++ after ∧
      Follows d rules w.order.clientId (before ++ t :: after) s l s' l' ∧
      s'.register.Begun w.order.clientId := by
  induction events generalizing s l w pause request with
  | nil => cases hv
  | cons event events ih =>
    rw [run?_cons] at h
    have hlater : ∀ e ∈ events, e.Apart rules w.order.clientId n :=
      fun e he => hapart e (List.mem_cons_of_mem _ he)
    cases event with
    | desk e =>
      obtain ⟨_, hstep, h⟩ := Option.bind_eq_some_iff.mp h
      obtain ⟨s₁, hs, rfl⟩ := Option.map_eq_some_iff.mp hstep
      obtain ⟨l₁, hfirst⟩ :=
        DeskState.follows_after hrules hi hl (hapart _ List.mem_cons_self) hs
      obtain ⟨before, after, l', hsplit, hrest, hbegun⟩ :=
        ih hw h hv hfirst.feeRules hfirst.isolates (hfirst.carriesOnly hl) hlater
      refine ⟨(desk e).message?.toList ++ before, after, l', ?_, ?_, hbegun⟩
      · rw [messages_cons, hsplit, List.append_assoc]
      · rw [List.append_assoc]
        exact hfirst.trans hrest
    | reply r =>
      obtain ⟨id, poll, hpoll⟩ := Placing.poll?_of_isSubmitted d r hw
      simp only [step?, Option.bind_some, Placing.resume_of_poll? hpoll] at h
      have hv' : Watch.finality? poll (replies events) = some (.validated t) := by
        simpa [replies, reply?, Placing.finality?, hpoll] using hv
      cases poll with
      | halted => simp [Watch.finality?] at hv'
      | ask pause' request' watch =>
        rw [← Placing.finality?_watching d w.order id] at hv'
        exact ih (w := ⟨w.order, .watching id watch⟩) rfl h hv' hrules hi hl hlater
      | done v =>
        obtain rfl : v = .validated t := by simpa [Watch.finality?] using hv'
        obtain ⟨l', hfollows, hbegun⟩ := follows_finish h hrules hi hl hlater
        exact ⟨[], messages events, l', rfl, hfollows, hbegun⟩

end PollEvent

/-! ## The poll among the messages -/

/-- A placement has submitted its transaction, and its order holds the sequence of this alone. -/
structure Placing.Submitted (w : Placing) (s : DeskState) (n : UInt32) : Prop where
  stage : w.stage.isSubmitted = true
  order : ∃ a, s.order? w.order.clientId = some a ∧ a.sequence? = some n
  sole : s.register.Sole w.order.clientId

/-- A placement that waits has submitted its transaction so from the turn on in which it did. -/
theorem Placing.Prepares.submitted {d : Desk} {o : PlaceOrder} {s s' : DeskState} {pause : Nat}
    {request : Request} {w : Placing} (h : Prepares d o s (s', .ask pause request w))
    (hw : w.stage.isSubmitted = true) : ∃ n, w.Submitted s' n := by
  cases h with
  | waits _ _ stage _ =>
    rw [stage] at hw
    cases hw
  | @submits _ t signed id _ _ _ assigned =>
    obtain ⟨a, _, hsets⟩ := OrderRegister.sets_assign assigned
    exact ⟨id.sequence, rfl, ⟨{ a with exchangeId := some id.text },
      (hsets _).trans (if_pos rfl), Order.sequence?_of_exchangeId rfl⟩,
      OrderRegister.sole_assign assigned (Or.inl rfl)⟩

namespace PollEvent

/-- Events that bring a placement to its end: its poll finds a transaction validated, the stream
brings the transactions of a ledger, and everything else leaves the order alone. -/
structure Schedule (d : Desk) (s : DeskState) (w : Placing) (n : UInt32) (t : Outcome)
    (ledger : List Outcome) (events : List PollEvent) : Prop where
  poll : w.finality? d (replies events) = some (.validated t)
  stream : Delivers [] ledger (messages events)
  apart : ∀ e ∈ events, e.Apart s.terms.feeRules w.order.clientId n

variable {d : Desk} {s s₁ s₂ : DeskState} {w : Placing} {n : UInt32} {t : Outcome}
  {before after : List Outcome} {events events' : List PollEvent} {pause : Nat} {request : Request}
  {text text' : String}

/-- The order of a placement that succeeds ends up as its transaction and those after it make it,
each taken in once by the order itself, but that it is opened, and it has had their trades. -/
theorem ends_by_the_ledger (hw : w.Submitted s n) (hn : ∀ x ∈ before, ¬x.Names d.account n)
    (hs : Schedule d s w n t (before ++ t :: after) events)
    (h : run? d (s, .ask pause request w) events = some (s₁, .done (.ok text))) :
    ∃ a l reports b, s.order? w.order.clientId = some a ∧
      (Trader.mk d.account d.markets s.terms.feeRules).takeAll? (OrderRegister.empty.track a)
        (t :: after) = some (l, reports) ∧
      l.find? w.order.clientId = some b ∧ s₁.order? w.order.clientId = some b.opened ∧
      tradesOf w.order.clientId s₁.events =
        tradesOf w.order.clientId s.events ++ tradesOf w.order.clientId reports := by
  obtain ⟨a, ha, hsequence⟩ := hw.order
  have hl := OrderRegister.carriesOnly_of_one hsequence
  obtain ⟨ts, ts', l, hsplit, hfollows, hbegun⟩ := follows_poll hw.stage h hs.poll rfl
    (OrderRegister.isolates_track ha hw.sole) hl hs.apart
  obtain ⟨reports, htake, htrades⟩ := hfollows.trades
  obtain ⟨c, b, hc, hb, hcb⟩ := hfollows.isolates.order
  have hdelivers : Delivers before (t :: after) (ts ++ ts') :=
    hsplit ▸ hs.stream.skip (List.nil_subset _) (List.Subset.refl _)
  have honce := hdelivers.taken_beside (OrderRegister.oneLivePerSequence_of_one a)
    (fun x hx => Trader.spent_of_unnamed hl (hn x hx)) htake
  refine ⟨a, l, reports, b, ha, honce, hb, ?_, htrades⟩
  rw [← hcb, Order.opened_of_begun (hbegun c hc)]
  exact hc

/-- A fill counts once, whichever way it comes. Let a placement hold its sequence alone, and let the
stream bring the transactions of the ledger in their order, each at least once, where none names the
sequence before the placement's own. Then the order ends up as that transaction and those after it
make it, each taken in once by the order itself, and opened, and it has had their trades, wherever
among the messages the poll finds its transaction validated and succeeds. -/
theorem fills_count_once_by_either_channel (hw : w.Submitted s n)
    (hn : ∀ x ∈ before, ¬x.Names d.account n)
    (hs : Schedule d s w n t (before ++ t :: after) events)
    (hs' : Schedule d s w n t (before ++ t :: after) events')
    (h : run? d (s, .ask pause request w) events = some (s₁, .done (.ok text)))
    (h' : run? d (s, .ask pause request w) events' = some (s₂, .done (.ok text'))) :
    (∃ a l reports b, s.order? w.order.clientId = some a ∧
      (Trader.mk d.account d.markets s.terms.feeRules).takeAll? (OrderRegister.empty.track a)
        (t :: after) = some (l, reports) ∧
      l.find? w.order.clientId = some b ∧ s₁.order? w.order.clientId = some b.opened ∧
      tradesOf w.order.clientId s₁.events =
        tradesOf w.order.clientId s.events ++ tradesOf w.order.clientId reports) ∧
    s₂.order? w.order.clientId = s₁.order? w.order.clientId ∧
    tradesOf w.order.clientId s₂.events = tradesOf w.order.clientId s₁.events := by
  obtain ⟨a, l, reports, b, ha, htake, hb, hb₁, htrades⟩ := ends_by_the_ledger hw hn hs h
  obtain ⟨_, _, _, _, ha', htake', hb', hb₂, htrades'⟩ := ends_by_the_ledger hw hn hs' h'
  refine ⟨⟨a, l, reports, b, ha, htake, hb, hb₁, htrades⟩, ?_⟩
  obtain rfl := Option.some.inj (ha.symm.trans ha')
  obtain ⟨rfl, rfl⟩ := Prod.mk.inj (Option.some.inj (htake.symm.trans htake'))
  obtain rfl := Option.some.inj (hb.symm.trans hb')
  exact ⟨hb₂.trans hb₁.symm, htrades'.trans htrades.symm⟩

/-! An offer sells in part to one that rests, and rests itself; then it is taken from. The stream
brings both transactions after one of another order, and the first of them again, while a further
order comes in. The poll finds the first transaction before the stream brings it, or after
everything. -/

def saleOrder : PlaceOrder := ⟨"1-1", "SOLO-XRP", .ofWord 100, .sell, .limit, some .one⟩

def saleDesk : DeskState where
  register := OrderRegister.empty.track { saleOrder.toOrder with exchangeId := some "7-20" }

def salePlacing : Placing := ⟨saleOrder, .watching ⟨7, 20⟩ ⟨⟨"C0FFEE", 20, 0⟩, 1, .index⟩⟩

def sale : Outcome where
  hash := "C0FFEE"
  transaction := ⟨"rMe", "OfferCreate", 7, none, none, 0, none, none, none⟩
  engineResult := "tesSUCCESS"
  nodes := [
    { kind := .created
      entryType := .offer
      ledgerIndex := ""
      before := {}
      after := { account := some "rMe", sequence := some 7 } },
    { kind := .deleted
      entryType := .offer
      ledgerIndex := ""
      before := {
        takerGets := some (.drops "5000000")
        takerPays := some (.issued ⟨"SOLO", "rIssuer", "10"⟩) }
      after := { account := some "rMaker" } }]
  ledgerIndex := some 9
  validated := true
  date := none

def saleAnswer : Answer := .ofResult (.object [
  ("Account", .string "rMe"), ("TransactionType", .string "OfferCreate"), ("Sequence", .ofNat 7),
  ("hash", .string "C0FFEE"), ("ledger_index", .ofNat 9),
  ("meta", .object [
    ("AffectedNodes", .array [
      .object [("CreatedNode", .object [("LedgerEntryType", .string "Offer"),
        ("NewFields", .object [("Account", .string "rMe"), ("Sequence", .ofNat 7)])])],
      .object [("DeletedNode", .object [("LedgerEntryType", .string "Offer"),
        ("PreviousFields", .object [("TakerGets", .string "5000000"),
          ("TakerPays", IssuedAmount.toJson ⟨"SOLO", "rIssuer", "10"⟩)]),
        ("FinalFields", .object [("Account", .string "rMaker")])])]]),
    ("TransactionResult", .string "tesSUCCESS")]),
  ("validated", .bool true)])

def saleReplies : List PollEvent :=
  [.reply (.ok (LedgerHistory.indexAnswer 9)), .reply (.ok saleAnswer)]

def saleMessages : List PollEvent :=
  [.desk (.message Placing.restingCreate), .desk (.message sale),
    .desk (.orders (.step default (.track Placing.limitOrder.toOrder rfl))),
    .desk (.message RegisterStep.partialFill), .desk (.message sale)]

theorem sale_by_either_channel : ∃ s₁ s₂,
    run? Placing.soloDesk (saleDesk, .ask 0 .validatedLedger salePlacing)
      (saleReplies ++ saleMessages) = some (s₁, .done (.ok "7-20")) ∧
    run? Placing.soloDesk (saleDesk, .ask 0 .validatedLedger salePlacing)
      (saleMessages ++ saleReplies) = some (s₂, .done (.ok "7-20")) ∧
    (tradesOf "1-1" s₁.events).map (·.amount) = [.ofWord 10, .ofWord 40] ∧
    (∃ a l reports b, saleDesk.order? "1-1" = some a ∧
      (Trader.mk "rMe" Placing.soloDesk.markets .empty).takeAll? (OrderRegister.empty.track a)
        [sale, RegisterStep.partialFill] = some (l, reports) ∧
      l.find? "1-1" = some b ∧ s₁.order? "1-1" = some b.opened ∧
      tradesOf "1-1" s₁.events = tradesOf "1-1" saleDesk.events ++ tradesOf "1-1" reports) ∧
    s₂.order? "1-1" = s₁.order? "1-1" ∧ tradesOf "1-1" s₂.events = tradesOf "1-1" s₁.events := by
  have hw : salePlacing.Submitted saleDesk 7 :=
    ⟨rfl, ⟨_, rfl, by decide +kernel⟩, (OrderRegister.oneLivePerSequence_of_one _).sole⟩
  have hn : ∀ x ∈ [Placing.restingCreate], ¬x.Names Placing.soloDesk.account 7 := by
    intro x hx hnames
    obtain rfl := List.mem_singleton.mp hx
    generalize hm : (7 : UInt32) = m at hnames
    cases hnames with
    | create own kind => exact absurd hm (by decide)
    | cancel own kind offer => cases offer
    | resting success mem own kind offer =>
      obtain rfl := List.mem_singleton.mp mem
      exact kind rfl
  have hapart : ∀ e ∈ saleReplies ++ saleMessages, e.Apart saleDesk.terms.feeRules "1-1" 7 := by
    intro e he
    simp only [saleReplies, saleMessages, List.cons_append, List.nil_append, List.mem_cons,
      List.not_mem_nil, or_false] at he
    rcases he with rfl | rfl | rfl | rfl | rfl | rfl | rfl
    · trivial
    · trivial
    · trivial
    · trivial
    · exact ⟨by decide, fun _ _ h => by cases h⟩
    · trivial
    · trivial
  have hdelivers : Delivers [] ([Placing.restingCreate] ++ sale :: [RegisterStep.partialFill])
      [Placing.restingCreate, sale, RegisterStep.partialFill, sale] :=
    .next (.next (.next (.again (by simp) .done)))
  have hs : Schedule Placing.soloDesk saleDesk salePlacing 7 sale
      ([Placing.restingCreate] ++ sale :: [RegisterStep.partialFill])
      (saleReplies ++ saleMessages) := ⟨by decide +kernel, hdelivers, hapart⟩
  have hs' : Schedule Placing.soloDesk saleDesk salePlacing 7 sale
      ([Placing.restingCreate] ++ sale :: [RegisterStep.partialFill])
      (saleMessages ++ saleReplies) :=
    ⟨by decide +kernel, hdelivers, fun e he =>
      hapart e (List.mem_append.mpr (List.mem_append.mp he).symm)⟩
  obtain ⟨s₁, s₂, h, h', htrades⟩ : ∃ s₁ s₂,
      run? Placing.soloDesk (saleDesk, .ask 0 .validatedLedger salePlacing)
        (saleReplies ++ saleMessages) = some (s₁, .done (.ok "7-20")) ∧
      run? Placing.soloDesk (saleDesk, .ask 0 .validatedLedger salePlacing)
        (saleMessages ++ saleReplies) = some (s₂, .done (.ok "7-20")) ∧
      (tradesOf "1-1" s₁.events).map (·.amount) = [.ofWord 10, .ofWord 40] :=
    ⟨_, _, rfl, rfl, by decide +kernel⟩
  exact ⟨s₁, s₂, h, h', htrades, fills_count_once_by_either_channel hw hn hs hs' h h'⟩

end PollEvent

end OfferDesk
