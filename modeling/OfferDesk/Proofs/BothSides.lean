-- The taker and the makers agree on a trade. The client of a taker adds up what the resting offers
-- of others gave; the client of each maker reads the share of its own offer. Both read the same
-- share off a node, and no other part of the transaction gets in between.
import OfferDesk.Proofs.NamedOrders
import OfferDesk.Proofs.Patching

namespace OfferDesk

open OrderEvent (tradesOf eventsOf)

/-! ## What an order records -/

/-- The base and quote of a resting offer that a trade was about. -/
abbrev Share := Decimal × Decimal

/-- A trade is reported for a share if base changed hands, at a price that can be held. -/
def Share.isReported (share : Share) : Bool :=
  share.1.isPositive && (share.2.div? share.1).isSome

namespace Order

/-- The order with a share counted, if there is one. -/
def withShare? (o : Order) (hash : String) : Option Share → Option Order
  | none => some o
  | some share => o.withFill? hash share.1 share.2

/-- A register and some events record one share of an order and no more: the order has it counted
and is otherwise as it was, in whatever state, and the trade is reported if there was one. -/
structure Records (o : Order) (hash : String) (share : Option Share) (r' : OrderRegister)
    (events : List OrderEvent) : Prop where
  order : ∃ a state, o.withShare? hash share = some a ∧
    r'.find? o.clientId = some { a with state := state }
  trades : (tradesOf o.clientId events).map (fun t => (t.amount, t.quoteAmount)) =
    share.toList.filter Share.isReported

end Order

/-! ## The share of a finding -/

namespace OrderEvent

variable {clientId : String} {events : List OrderEvent}

theorem tradesOf_eq_nil (h : eventsOf clientId events = []) : tradesOf clientId events = [] := by
  apply List.filter_eq_nil_iff.mpr
  intro t ht
  obtain ⟨e, he, htrade⟩ := List.mem_filterMap.mp ht
  have hother := List.filter_eq_nil_iff.mp h e he
  rwa [clientId_of_trade? htrade] at hother

end OrderEvent

namespace Order.Records

variable {o a : Order} {hash : String} {share : Option Share} {r r' : OrderRegister}
  {events later earlier : List OrderEvent}

theorem nothing (ho : r.find? o.clientId = some o) (hnone : tradesOf o.clientId events = []) :
    o.Records hash none r events :=
  ⟨⟨o, o.state, rfl, ho⟩, by simp [hnone]⟩

/-- The order is still there, with all that the client asked for. -/
theorem there (h : o.Records hash share r' events) :
    ∃ a, r'.find? o.clientId = some a ∧ a.asPlaced = o.asPlaced := by
  obtain ⟨a, state, ha, hfind⟩ := h.order
  refine ⟨_, hfind, ?_⟩
  cases share with
  | none =>
    cases ha
    rfl
  | some share =>
    obtain ⟨_, _, _, _, rfl⟩ := Order.withFill?_eq_some_iff.mp ha
    rfl

/-- An order that records something of a transaction has it counted. -/
theorem counted {share : Share}
    (h : o.Records hash (if o.hasApplied hash then none else some share) r' events) :
    ∃ a, r'.find? o.clientId = some a ∧ a.clientId = o.clientId ∧ a.hasApplied hash = true := by
  obtain ⟨a, state, ha, hfind⟩ := h.order
  refine ⟨_, hfind, ?_⟩
  by_cases hc : o.hasApplied hash = true
  · rw [if_pos hc] at ha
    cases ha
    exact ⟨rfl, hc⟩
  · rw [if_neg hc] at ha
    have hid : a.clientId = o.clientId := Order.clientId_withFill? ha
    have hcounted : a.hasApplied hash = true := Order.hasApplied_withFill? ha
    exact ⟨hid, hcounted⟩

/-- Events of other orders may come before. -/
theorem before (h : o.Records hash share r' events)
    (hnone : tradesOf o.clientId earlier = []) : o.Records hash share r' (earlier ++ events) where
  order := h.order
  trades := by rw [OrderEvent.tradesOf_append, hnone, List.nil_append, h.trades]

/-- Nothing more may be recorded afterwards. -/
theorem andNothing (h : o.Records hash share r events) (ha : r.find? o.clientId = some a)
    (hid : a.clientId = o.clientId) (h' : a.Records hash none r' later) :
    o.Records hash share r' (events ++ later) where
  order := by
    obtain ⟨b, state, hb, hfind⟩ := h.order
    rw [ha] at hfind
    cases hfind
    obtain ⟨c, state', hc, hfind'⟩ := h'.order
    cases hc
    exact ⟨b, state', hb, hid ▸ hfind'⟩
  trades := by
    rw [OrderEvent.tradesOf_append, List.map_append, h.trades, ← hid, h'.trades]
    simp

end Order.Records

namespace Finding

variable {ctx : Trader} {t : Outcome} {time : Stamp} {r r' : OrderRegister} {found : Finding}
  {a : Order} {x : String} {events : List OrderEvent}

/-- The base and quote that a finding is about. -/
def share : Finding → Option Share
  | fills _ _ fill _ => some (fill.base, fill.quote)
  | _ => none

/-- The trade that reports a fill tells its base and quote. -/
theorem amounts_of_trades? {f : Fill} {market : Market} {o : Order}
    (h : f.trades? ctx market o = some events) :
    (tradesOf o.clientId events).map (fun t => (t.amount, t.quoteAmount)) =
      (some (f.base, f.quote)).toList.filter Share.isReported := by
  unfold Fill.trades? at h
  by_cases hbase : f.base.isPositive = true
  · simp only [hbase, Bool.not_true, Bool.false_eq_true, if_false] at h
    cases hprice : f.quote.div? f.base with
    | none =>
      rw [hprice] at h
      cases h
      simp [tradesOf, Share.isReported, hprice]
    | some price =>
      rw [hprice] at h
      obtain ⟨fee, _, h⟩ := Option.bind_eq_some_iff.mp h
      cases h
      simp [tradesOf, OrderEvent.trade?, Share.isReported, hbase, hprice]
  · simp only [Bool.not_eq_true] at hbase
    simp only [hbase, Bool.not_false, if_true, Option.some.injEq] at h
    subst h
    simp [tradesOf, Share.isReported, hbase]

/-- What is found of another order records nothing of this one. -/
theorem records_of_other (h : Trader.Found t r found) (ha : r.find? a.clientId = some a)
    (hother : found.order? ≠ some a) (henter : found.enter? ctx time r = some (r', events)) :
    a.Records t.hash none r' events := by
  have hid : ∀ o, found.order? = some o → o.clientId ≠ a.clientId := by
    intro o ho hid
    have hfind : r.find? o.clientId = some o := by
      cases h with
      | nothing => cases ho
      | ends hs =>
        cases ho
        exact OrderRegister.find?_of_resolve? hs
      | fills hs =>
        cases ho
        exact OrderRegister.find?_of_resolve? hs
    rw [hid, ha] at hfind
    cases hfind
    exact hother ho
  apply Order.Records.nothing
  · obtain ⟨w, hw, hreplaces⟩ := replaces_of_enter h henter
    cases w with
    | none => exact (hreplaces _).trans ha
    | some b =>
      obtain ⟨o, ho, hb⟩ := clientId_of_replaces hw
      rw [hreplaces, if_neg fun hc => hid o ho (hb.symm.trans hc.symm), ha]
  · apply OrderEvent.tradesOf_eq_nil
    apply OrderEvent.eventsOf_eq_nil
    intro e he
    obtain ⟨o, ho, heq⟩ := clientId_of_enter henter he
    rw [heq]
    exact hid o ho

/-- What is found of an order, and of no other, records its share there unless the transaction is
counted. -/
theorem records_share (h : Trader.Found t r found) (ha : r.find? a.clientId = some a)
    (hthis : ∀ o, found.order? = some o → o = a)
    (henter : found.enter? ctx time r = some (r', events)) :
    a.Records t.hash (if a.hasApplied t.hash then none else found.share) r' events := by
  obtain ⟨w, hw, hreplaces⟩ := replaces_of_enter h henter
  have htrades := filterMap_trade?_of_enter henter
  cases h with
  | nothing =>
    cases henter
    rw [show nothing.share = none from rfl, ite_self]
    exact .nothing ha rfl
  | @ends _ order state =>
    obtain rfl := hthis order rfl
    cases hw
    refine ⟨⟨order, state, by simp [share, Order.withShare?], (hreplaces _).trans (if_pos rfl)⟩, ?_⟩
    simp [tradesOf, htrades, trades, share]
  | @fills _ order market fill next _ hash =>
    obtain rfl := hthis order rfl
    rw [← hash]
    simp only [enter?, Fill.count?] at henter
    by_cases hc : order.hasApplied fill.hash = true
    · rw [if_pos hc] at henter ⊢
      cases henter
      exact .nothing ha rfl
    · simp only [if_neg hc, Option.bind_eq_bind, Option.bind_eq_some_iff] at henter
      obtain ⟨o', ho', reported, hreported, _⟩ := henter
      have hid : o'.clientId = order.clientId := Order.clientId_withFill? ho'
      rw [if_neg hc]
      constructor
      · simp only [replaces?, if_neg hc, ho', hreported, Option.bind_eq_bind, Option.bind_some,
          Option.pure_def, Option.some.injEq] at hw
        subst hw
        exact ⟨o', next o', ho', by rw [← hid]; exact (hreplaces _).trans (if_pos rfl)⟩
      · have hsame : tradesOf o'.clientId events = tradesOf o'.clientId reported := by
          simp only [tradesOf, htrades, trades, if_neg hc, ho', hreported, Option.getD_some]
        rw [← hid, hsame]
        exact amounts_of_trades? hreported

/-- An order that has the transaction counted records nothing more of it. -/
theorem records_nothing (h : Trader.Found t r found) (ha : r.find? a.clientId = some a)
    (hc : a.hasApplied t.hash = true) (henter : found.enter? ctx time r = some (r', events)) :
    a.Records t.hash none r' events := by
  by_cases hthis : found.order? = some a
  · have hrecords := records_share h ha (fun o ho => Option.some.inj (ho.symm.trans hthis)) henter
    rwa [if_pos hc] at hrecords
  · exact records_of_other h ha hthis henter

end Finding

namespace Part

variable {ctx : Trader} {t : Outcome} {time : Stamp} {r r' : OrderRegister} {parts : List Part}
  {a : Order} {events : List OrderEvent} {fills : List Fill}

/-- Parts that are taken in one after the other can be taken in in two goes. -/
theorem trace?_append {parts' : List Part}
    (h : trace? ctx time r (parts ++ parts') = some ((r', events), fills)) :
    ∃ r₁ e₁ f₁ e₂ f₂, trace? ctx time r parts = some ((r₁, e₁), f₁) ∧
      trace? ctx time r₁ parts' = some ((r', e₂), f₂) ∧ events = e₁ ++ e₂ := by
  induction parts generalizing r events fills with
  | nil => exact ⟨r, [], [], events, fills, rfl, h, rfl⟩
  | cons part parts ih =>
    simp only [List.cons_append, trace?, Option.bind_eq_bind, Option.bind_eq_some_iff,
      Option.pure_def, Option.some.injEq, Prod.mk.injEq, Prod.exists] at h
    obtain ⟨found, hpart, r₁, first, henter, _, rest, fills', hrest, ⟨rfl, rfl⟩, _⟩ := h
    obtain ⟨r₂, e₁, f₁, e₂, f₂, hfirst, hsecond, rfl⟩ := ih hrest
    refine ⟨r₂, first ++ e₁, found.recorded ++ f₁, e₂, f₂, ?_, hsecond, by simp⟩
    simp [trace?, hpart, henter, hfirst]

/-- Once the transaction is counted, its other parts record nothing more of an order. -/
theorem records_nothing
    (hfound : ∀ part ∈ parts, ∀ r found, part r = some found → Trader.Found t r found)
    (ha : r.find? a.clientId = some a) (hc : a.hasApplied t.hash = true)
    (h : trace? ctx time r parts = some ((r', events), fills)) :
    a.Records t.hash none r' events := by
  induction parts generalizing r a events fills with
  | nil =>
    cases h
    exact .nothing ha rfl
  | cons part parts ih =>
    simp only [trace?, Option.bind_eq_bind, Option.bind_eq_some_iff, Option.pure_def,
      Option.some.injEq, Prod.mk.injEq, Prod.exists] at h
    obtain ⟨found, hpart, r₁, first, henter, _, rest, fills', hrest, ⟨rfl, rfl⟩, _⟩ := h
    have hfirst := Finding.records_nothing (hfound part List.mem_cons_self r found hpart) ha hc
      henter
    obtain ⟨b, state, hb, hfind⟩ := hfirst.order
    cases hb
    exact hfirst.andNothing hfind rfl
      (ih (fun p hp => hfound p (List.mem_cons_of_mem _ hp)) hfind hc hrest)

/-- One part is about an order and no other part is: what the one part comes to is recorded. -/
theorem records_alone {before after : List Part} {part : Part} {k : UInt32} {order : Order}
    {share : Option Share} (hbefore : ∀ p ∈ before, p.Within t (· ≠ k))
    (hafter : ∀ p ∈ after, p.Within t (· ≠ k)) (hfound : r.resolve? k = some order)
    (hpart : ∀ r found, r.resolve? k = some order → part r = some found →
      Trader.Found t r found ∧ found.share = share ∧ ∀ a, found.order? = some a → a = order)
    (h : trace? ctx time r (before ++ part :: after) = some ((r', events), fills)) :
    order.Records t.hash (if order.hasApplied t.hash then none else share) r' events := by
  obtain ⟨r₁, e₁, _, e₂, _, hfirst, hthen, rfl⟩ := trace?_append h
  simp only [trace?, Option.bind_eq_bind, Option.bind_eq_some_iff, Option.pure_def,
    Option.some.injEq, Prod.mk.injEq, Prod.exists] at hthen
  obtain ⟨found, hhere, r₂, first, henter, _, rest, _, hrest, ⟨rfl, rfl⟩, _⟩ := hthen
  -- the parts before leave the order alone
  have htwins := twins_trace hbefore hfirst
  have hagree : OrderRegister.Agree (· = k) r r₁ := htwins.agree fun n hn => not_not_intro hn
  have hfound₁ : r₁.resolve? k = some order := (hagree.resolve?_eq rfl).symm.trans hfound
  have hseq : order.sequence? = some k :=
    (OrderRegister.mem_carrying.mp (OrderRegister.mem_carrying_of_resolve? hfound)).2.2
  have hout : ¬ r.Carries (· ≠ k) order.clientId :=
    OrderRegister.not_carries (OrderRegister.find?_of_resolve? hfound) hseq (by simp)
  -- the part itself is about the order
  obtain ⟨hfits, rfl, hthis⟩ := hpart r₁ found hfound₁ hhere
  have hrecords := Finding.records_share hfits (OrderRegister.find?_of_resolve? hfound₁) hthis henter
  -- and the parts after leave it alone again
  have hlater := twins_trace hafter hrest
  obtain ⟨a, ha, hplaced⟩ := hrecords.there
  have hid : a.clientId = order.clientId :=
    show a.asPlaced.clientId = order.asPlaced.clientId by rw [hplaced]
  have hseq' : a.sequence? = some k :=
    show a.asPlaced.sequence? = some k by rw [hplaced]; exact hseq
  obtain ⟨hsame, hnone⟩ := hlater.leaves (OrderRegister.not_carries ha hseq' (by simp))
  refine (hrecords.andNothing ha hid (.nothing ?_ ?_)).before
    (OrderEvent.tradesOf_eq_nil (htwins.leaves hout).2)
  · rw [hid, hsame, ha]
  · rw [hid]
    exact OrderEvent.tradesOf_eq_nil hnone

end Part

/-! ## What a resting offer gave -/

/-- The base and quote that a resting offer gave in a market. A created one gave nothing, nor did
one without a former size, one that cannot be read or one of another market. -/
def Market.given? (m : Market) (n : AffectedNode) : Option Share :=
  match n.change with
  | .ok (some c) => c.taken?.bind m.baseQuote?
  | _ => none

theorem Market.given?_of_created (m : Market) {n : AffectedNode} (h : n.kind = .created) :
    m.given? n = none := by
  have hchange : n.change = .ok none := by
    simp only [AffectedNode.change, if_pos h]
    rfl
  simp only [given?, hchange]

namespace Trader

variable {ctx : Trader} {o : Outcome} {time : Stamp} {r : OrderRegister} {m : Market}
  {n : AffectedNode} {order : Order} {found : Finding} {k : UInt32}

/-- The client of a maker reads what the offer gave. -/
theorem share_nodeFinding (own : n.account? = some ctx.account) (hk : n.sequence? = some k)
    (hfound : r.resolve? k = some order) (listed : ctx.markets.find? order.pair = some m)
    (h : ctx.nodeFinding? o time n r = some found) :
    found.share = m.given? n ∧ ∀ a, found.order? = some a → a = order := by
  unfold nodeFinding? at h
  by_cases hcreated : n.kind = .created
  · rw [if_pos (Or.inr hcreated)] at h
    cases h
    simp [m.given?_of_created hcreated, Finding.share, Finding.order?]
  unfold Market.given?
  simp only [own, hcreated, hk, hfound, ne_eq, not_true_eq_false, or_self, if_false] at h
  cases hchange : n.change with
  | error e =>
    rw [hchange] at h
    cases h
    simp [Finding.share, Finding.order?]
  | ok c =>
    cases c with
    | none =>
      rw [hchange] at h
      cases h
      split <;> simp [Finding.share, Finding.order?]
    | some c =>
      simp only [hchange, listed, Option.bind_eq_bind, Option.bind_eq_some_iff] at h
      obtain ⟨taken, htaken, h⟩ := h
      simp only [htaken, Option.bind_some]
      cases hlegs : m.baseQuote? taken with
      | none =>
        rw [hlegs] at h
        cases h
        simp [Finding.share, Finding.order?]
      | some share =>
        rw [hlegs] at h
        cases h
        simp [Finding.share, Finding.order?]

/-- The client of a taker adds what the offer gave. -/
theorem of_addTaken? {sum next : Share} (h : addTaken? m sum n = some next) :
    m.given? n = none ∧ next = sum ∨ ∃ share, m.given? n = some share ∧
      sum.1.add? share.1 = some next.1 ∧ sum.2.add? share.2 = some next.2 := by
  unfold addTaken? at h
  unfold Market.given?
  cases hchange : n.change with
  | error e =>
    rw [hchange] at h
    cases h
    simp
  | ok c =>
    cases c with
    | none =>
      rw [hchange] at h
      cases h
      simp
    | some c =>
      simp only [hchange, Option.bind_eq_bind, Option.bind_eq_some_iff] at h
      obtain ⟨taken, htaken, h⟩ := h
      simp only [htaken, Option.bind_some]
      cases hlegs : m.baseQuote? taken with
      | none =>
        rw [hlegs] at h
        cases h
        simp
      | some share =>
        simp only [hlegs, Option.bind_eq_some_iff, Option.pure_def, Option.some.injEq] at h
        obtain ⟨base, hbase, quote, hquote, rfl⟩ := h
        exact Or.inr ⟨share, rfl, hbase, hquote⟩

/-- In the end it has added up what all the offers gave. -/
theorem sums_of_addTaken? {nodes : List AffectedNode} {sum total : Share}
    (h : nodes.foldlM (addTaken? m) sum = some total) :
    sum.1.sumFrom? ((nodes.filterMap m.given?).map (·.1)) = some total.1 ∧
      sum.2.sumFrom? ((nodes.filterMap m.given?).map (·.2)) = some total.2 := by
  induction nodes generalizing sum with
  | nil =>
    cases h
    exact ⟨rfl, rfl⟩
  | cons n nodes ih =>
    rw [List.foldlM_cons, Option.bind_eq_bind, Option.bind_eq_some_iff] at h
    obtain ⟨next, hnext, hrest⟩ := h
    obtain ⟨hbase, hquote⟩ := ih hrest
    rcases of_addTaken? hnext with ⟨hnone, rfl⟩ | ⟨share, hshare, hb, hq⟩
    · rw [List.filterMap_cons_none hnone]
      exact ⟨hbase, hquote⟩
    · rw [List.filterMap_cons_some hshare]
      simp only [Decimal.sumFrom?, List.map_cons, List.foldlM_cons, hb, hq, Option.bind_eq_bind,
        Option.bind_some]
      exact ⟨hbase, hquote⟩

/-- The client of a taker finds nothing in a transaction without nodes, and else the sum. -/
theorem share_createFinding (success : o.isSuccess = true)
    (hfound : r.resolve? o.transaction.sequence = some order)
    (listed : ctx.markets.find? order.pair = some m)
    (h : ctx.createFinding? o time r = some found) :
    (∀ a, found.order? = some a → a = order) ∧ ∃ total,
      ctx.takenFrom? m o.offerNodes = some total ∧
        found.share = if o.nodes.isEmpty then none else some total := by
  unfold createFinding? at h
  simp only [hfound, success, listed, Bool.not_true, Bool.false_eq_true, if_false] at h
  by_cases hempty : o.nodes.isEmpty = true
  · rw [if_pos hempty] at h
    cases h
    have hnone : o.offerNodes = [] := by
      rw [Outcome.offerNodes, List.isEmpty_iff.mp hempty, List.filter_nil]
    exact ⟨by simp [Finding.order?], (.zero, .zero), by rw [hnone]; rfl, by rw [if_pos hempty]; rfl⟩
  · simp only [if_neg hempty, Option.bind_eq_bind, Option.bind_eq_some_iff] at h
    obtain ⟨total, htotal, h⟩ := h
    cases h
    exact ⟨by simp [Finding.order?], total, htotal, by rw [if_neg hempty]; rfl⟩

end Trader

/-! ## The clients of a trade -/

/-- A client of an account that takes in a transaction, with a live order under a sequence in a
market. -/
structure Stake (m : Market) (o : Outcome) (account : String) (sequence : UInt32) where
  trader : Trader
  register : OrderRegister
  order : Order
  after : OrderRegister
  events : List OrderEvent
  own : trader.account = account
  found : register.resolve? sequence = some order
  listed : trader.markets.find? order.pair = some m
  takesIn : trader.process? o register = some (after, events)

theorem AffectedNode.offerId?_eq_some_iff {n : AffectedNode} {id : OfferId} :
    n.offerId? = some id ↔ n.account? = some id.account ∧ n.sequence? = some id.sequence := by
  simp only [offerId?, Option.bind_eq_bind, Option.bind_eq_some_iff, Option.pure_def,
    Option.some.injEq]
  constructor
  · rintro ⟨account, hown, sequence, hk, rfl⟩
    exact ⟨hown, hk⟩
  · rintro ⟨hown, hk⟩
    exact ⟨id.account, hown, id.sequence, hk, rfl⟩

/-- All offer nodes have an account and a sequence, no two the same. -/
def Outcome.HasDistinctOffers (o : Outcome) : Prop :=
  ∃ ids : List OfferId, o.offerNodes.map (·.offerId?) = ids.map some ∧ ids.Nodup

/-- No other offer node has the account and the sequence of one. -/
theorem Outcome.HasDistinctOffers.offerId?_ne {o : Outcome} (h : o.HasDistinctOffers)
    {n n' : AffectedNode} {before after : List AffectedNode}
    (hnodes : o.offerNodes = before ++ n :: after) (hn' : n' ∈ before ++ after) :
    n'.offerId? ≠ n.offerId? := by
  obtain ⟨ids, hids, hnodup⟩ := h
  have hmap : (o.offerNodes.map (·.offerId?)).Nodup := by
    rw [hids]
    exact hnodup.map (Option.some_injective _)
  rw [hnodes] at hmap
  exact ne_of_nodup_middle hmap hn'

namespace Stake

variable {m : Market} {o : Outcome} {account : String} {sequence : UInt32}
  (s : Stake m o account sequence)

/-- What the client records of its order: nothing of a transaction that is counted already. -/
def Records (share : Option Share) : Prop :=
  s.order.Records o.hash (if s.order.hasApplied o.hash then none else share) s.after s.events

/-- The parts of the transaction are taken in one after another. -/
theorem trace (validated : o.validated = true) (success : o.isSuccess = true) :
    ∃ time fills, Part.trace? s.trader time s.register (s.trader.ownFinding? o time ::
      o.offerNodes.map (s.trader.nodeFinding? o time)) = some ((s.after, s.events), fills) := by
  have h := s.takesIn
  rw [Trader.process?_eq_trace, Option.map_eq_some_iff] at h
  obtain ⟨⟨_, fills⟩, htrace, rfl⟩ := h
  simp only [Trader.trace?, validated, Bool.not_true, Bool.false_eq_true, if_false,
    Option.bind_eq_bind, Option.bind_eq_some_iff, Trader.parts, if_pos success] at htrace
  obtain ⟨time, _, htrace⟩ := htrace
  exact ⟨time, fills, htrace⟩

/-- The client of a taker records the sum of what the offers of others gave. -/
theorem records_sum (s : Stake m o o.transaction.account o.transaction.sequence)
    (validated : o.validated = true) (success : o.isSuccess = true)
    (kind : o.transaction.kind = "OfferCreate") :
    ∃ total, s.trader.takenFrom? m o.offerNodes = some total ∧
      s.Records (if o.nodes.isEmpty then none else some total) := by
  obtain ⟨time, fills, htrace⟩ := s.trace validated success
  simp only [Part.trace?, Option.bind_eq_bind, Option.bind_eq_some_iff, Option.pure_def,
    Option.some.injEq, Prod.mk.injEq, Prod.exists] at htrace
  obtain ⟨found, hown, r₁, first, henter, r₂, rest, fills', hrest, ⟨hafter, hevents⟩, _⟩ := htrace
  rw [Trader.ownFinding?, if_pos s.own.symm, if_pos kind] at hown
  obtain ⟨hthis, total, htotal, hshare⟩ :=
    Trader.share_createFinding success s.found s.listed hown
  refine ⟨total, htotal, ?_⟩
  have hfind := OrderRegister.find?_of_resolve? s.found
  have hrecords := Finding.records_share (Trader.found_createFinding hown) hfind hthis henter
  rw [hshare] at hrecords
  rw [Records, ← hafter, ← hevents]
  by_cases hempty : o.nodes.isEmpty = true
  · have hnone : o.offerNodes = [] := by
      rw [Outcome.offerNodes, List.isEmpty_iff.mp hempty, List.filter_nil]
    rw [hnone] at hrest
    cases hrest
    rwa [List.append_nil]
  · rw [if_neg hempty] at hrecords ⊢
    -- by now the order has the transaction counted, so its own nodes add nothing
    obtain ⟨a, ha, hid, hcounted⟩ := hrecords.counted
    refine hrecords.andNothing ha hid (Part.records_nothing ?_ (hid ▸ ha) hcounted hrest)
    intro part hpart r found h
    obtain ⟨n, _, rfl⟩ := List.mem_map.mp hpart
    exact Trader.found_nodeFinding h

/-- The client of a maker records what its offer gave. -/
theorem records_given (validated : o.validated = true) (success : o.isSuccess = true)
    (foreign : o.transaction.account ≠ account) (distinct : o.HasDistinctOffers)
    {n : AffectedNode} (hn : n ∈ o.offerNodes) (hid : n.offerId? = some ⟨account, sequence⟩) :
    s.Records (m.given? n) := by
  obtain ⟨time, fills, htrace⟩ := s.trace validated success
  obtain ⟨before, after, hnodes⟩ := List.append_of_mem hn
  obtain ⟨hown, hk⟩ := AffectedNode.offerId?_eq_some_iff.mp hid
  have hother : ∀ n' ∈ before ++ after,
      Part.Within o (· ≠ sequence) (s.trader.nodeFinding? o time n') := by
    intro n' hn'
    apply Trader.within_nodeFinding
    rintro k hnamed rfl
    obtain ⟨hown', _, hk'⟩ := Outcome.restingSequence?_eq_some_iff.mp hnamed
    apply distinct.offerId?_ne hnodes hn'
    rw [hid]
    exact AffectedNode.offerId?_eq_some_iff.mpr ⟨s.own ▸ hown', hk'⟩
  rw [hnodes, List.map_append, List.map_cons, ← List.cons_append] at htrace
  refine Part.records_alone ?_ ?_ s.found ?_ htrace
  · intro part hpart
    rcases List.mem_cons.mp hpart with rfl | hpart
    · apply Trader.within_ownFinding
      intro k hnamed
      rw [s.own, Outcome.ownSequence?, if_neg foreign] at hnamed
      cases hnamed
    · obtain ⟨n', hn', rfl⟩ := List.mem_map.mp hpart
      exact hother n' (List.mem_append_left _ hn')
  · intro part hpart
    obtain ⟨n', hn', rfl⟩ := List.mem_map.mp hpart
    exact hother n' (List.mem_append_right _ hn')
  · intro r found hfound hpart
    exact ⟨Trader.found_nodeFinding hpart,
      Trader.share_nodeFinding (by rw [s.own]; exact hown) hk hfound s.listed hpart⟩

end Stake

/-- For every successful offer of an account, the client of each maker records what its own offer
gave, and the client of the taker the sum of what the offers of others gave, in the order of the
nodes. An offer that gave nothing to its maker adds nothing to the taker. -/
theorem Outcome.taker_and_makers_agree {o : Outcome} (m : Market) (validated : o.validated = true)
    (success : o.isSuccess = true) (kind : o.transaction.kind = "OfferCreate")
    (distinct : o.HasDistinctOffers) :
    (∀ n ∈ o.offerNodes, ∀ id, n.offerId? = some id → id.account ≠ o.transaction.account →
      ∀ maker : Stake m o id.account id.sequence, maker.Records (m.given? n)) ∧
    ∀ taker : Stake m o o.transaction.account o.transaction.sequence, ∃ base quote,
      let shares := (o.offerNodes.filter (·.account? ≠ some o.transaction.account)).filterMap m.given?
      Decimal.zero.sumFrom? (shares.map (·.1)) = some base ∧
        Decimal.zero.sumFrom? (shares.map (·.2)) = some quote ∧
        taker.Records (if o.nodes.isEmpty then none else some (base, quote)) := by
  constructor
  · intro n hn id hid hforeign maker
    exact maker.records_given validated success hforeign.symm distinct hn hid
  · intro taker
    obtain ⟨total, htotal, hrecords⟩ := taker.records_sum validated success kind
    rw [Trader.takenFrom?, taker.own] at htotal
    obtain ⟨hbase, hquote⟩ := Trader.sums_of_addTaken? htotal
    exact ⟨total.1, total.2, hbase, hquote, hrecords⟩

/-! An offer takes from two others, the second one to the end, and rests with what it could not
get. -/

def takingOrder : Order :=
  { Order.start "3-1" "SOLO-XRP" .buy .limit (.ofWord 90) none .moment with
    exchangeId := some "3-20" }

def takingTrader : Trader := { RegisterStep.soloTrader with account := "rTaker" }

def sweep : Outcome :=
  { RegisterStep.partialFill with
    nodes := RegisterStep.partialFill.nodes ++ [{
      kind := .deleted
      entryType := .offer
      ledgerIndex := "J"
      before := {
        takerGets := some (soloWire "10")
        takerPays := some (.drops "5000000") }
      after := {
        account := some "rOther"
        sequence := some 4
        takerGets := some (soloWire "0")
        takerPays := some (.drops "0") } }, {
      kind := .created
      entryType := .offer
      ledgerIndex := "K"
      before := {}
      after := {
        account := some "rTaker"
        sequence := some 3
        takerGets := some (.drops "20000000")
        takerPays := some (soloWire "40") } }] }

theorem both_sides_of_a_sweep :
    ∃ (maker : Stake soloXrp sweep "rMe" 7) (taker : Stake soloXrp sweep "rTaker" 3),
      maker.Records (some (.ofWord 40, .ofWord 20)) ∧
        taker.Records (some (.ofWord 50, .ofWord 25)) := by
  obtain ⟨⟨after, events⟩, hmaker⟩ := Option.isSome_iff_exists.mp (show
    (RegisterStep.soloTrader.process? sweep (OrderRegister.empty.track
      RegisterStep.restingOrder)).isSome = true by decide +kernel)
  obtain ⟨⟨after', events'⟩, htaker⟩ := Option.isSome_iff_exists.mp (show
    (takingTrader.process? sweep (OrderRegister.empty.track takingOrder)).isSome = true by
      decide +kernel)
  have hids : sweep.HasDistinctOffers :=
    ⟨[⟨"rMe", 7⟩, ⟨"rOther", 4⟩, ⟨"rTaker", 3⟩], by decide +kernel, by decide⟩
  obtain ⟨hmakers, htakers⟩ := Outcome.taker_and_makers_agree soloXrp (o := sweep) rfl
    (by decide) rfl hids
  let maker : Stake soloXrp sweep "rMe" 7 :=
    ⟨RegisterStep.soloTrader, _, RegisterStep.restingOrder, after, events, rfl, by decide +kernel,
      by decide +kernel, hmaker⟩
  let taker : Stake soloXrp sweep "rTaker" 3 :=
    ⟨takingTrader, _, takingOrder, after', events', rfl, by decide +kernel, by decide +kernel,
      htaker⟩
  refine ⟨maker, taker, ?_, ?_⟩
  · have hrecords := hmakers (sweep.nodes.head (by decide)) (by decide +kernel) ⟨"rMe", 7⟩
      (by decide +kernel) (by decide) maker
    have hgiven : soloXrp.given? (sweep.nodes.head (by decide)) =
        some (.ofWord 40, .ofWord 20) := by decide +kernel
    rwa [hgiven] at hrecords
  · obtain ⟨base, quote, hbase, hquote, hrecords⟩ := htakers taker
    have hbase' : Decimal.zero.sumFrom? (((sweep.offerNodes.filter
      (·.account? ≠ some sweep.transaction.account)).filterMap soloXrp.given?).map (·.1)) =
        some (.ofWord 50) := by decide +kernel
    have hquote' : Decimal.zero.sumFrom? (((sweep.offerNodes.filter
      (·.account? ≠ some sweep.transaction.account)).filterMap soloXrp.given?).map (·.2)) =
        some (.ofWord 25) := by decide +kernel
    rw [hbase'] at hbase
    rw [hquote'] at hquote
    cases hbase
    cases hquote
    exact hrecords

end OfferDesk
