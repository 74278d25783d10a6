-- What a transaction does to one order does not depend on any other. An order that holds its
-- sequence alone fares in a full register as it would if nothing else were tracked, with the same
-- trades. It does not matter for that whether the order was opened before or not.
import OfferDesk.Proofs.PlacingTurns
import OfferDesk.Proofs.Reporting

namespace OfferDesk

/-! ## Opened orders -/

namespace Order

/-- The order once it is opened, if it still was in its first state. -/
def opened (o : Order) : Order :=
  if o.state = .pendingCreate then { o with state := .opened } else o

variable {a b o : Order}

theorem opened_of_begun (h : o.state ≠ .pendingCreate) : o.opened = o := if_neg h

theorem isLive_opened (o : Order) : o.opened.isLive = o.isLive := by
  unfold opened
  split
  · rename_i hs
    simp [isLive, hs, OrderState.isTerminal]
  · rfl

/-- Orders that are the same once they are opened differ in their states at most. -/
theorem eq_of_opened_eq (h : a.opened = b.opened) : b = { a with state := b.state } := by
  have hstate : ∀ o : Order, { o.opened with state := b.state } = { o with state := b.state } := by
    intro o
    unfold opened
    split <;> rfl
  calc b = { b.opened with state := b.state } := (hstate b).symm
    _ = { a.opened with state := b.state } := by rw [h]
    _ = { a with state := b.state } := hstate a

theorem isLive_eq_of_opened_eq (h : a.opened = b.opened) : b.isLive = a.isLive := by
  rw [← isLive_opened b, ← h, isLive_opened]

theorem sequence?_eq_of_opened_eq (h : a.opened = b.opened) : b.sequence? = a.sequence? := by
  rw [eq_of_opened_eq h]
  rfl

end Order

/-! ## Trades -/

namespace OrderEvent

/-- The trades of an order among some events. -/
def tradesOf (clientId : String) (events : List OrderEvent) : List Trade :=
  (events.filterMap trade?).filter (·.clientId = clientId)

theorem tradesOf_append (clientId : String) (events events' : List OrderEvent) :
    tradesOf clientId (events ++ events') =
      tradesOf clientId events ++ tradesOf clientId events' := by
  rw [tradesOf, List.filterMap_append, List.filter_append]
  rfl

theorem clientId_of_trade? {e : OrderEvent} {trade : Trade} (h : e.trade? = some trade) :
    e.clientId = trade.clientId := by
  cases e with
  | order update => cases h
  | trade t =>
    cases h
    rfl

end OrderEvent

theorem OrderRegister.filterMap_trade?_report (r : OrderRegister) (clientId : String)
    (state : OrderState) (isFill : Bool) (time : Stamp) :
    (r.report clientId state isFill time).2.filterMap OrderEvent.trade? = [] := by
  unfold report
  split
  · rfl
  · split
    · split <;> rfl
    · rfl

theorem Fill.clientId_of_trades? {f : Fill} {ctx : Trader} {market : Market} {o : Order}
    {events : List OrderEvent} {e : OrderEvent} (h : f.trades? ctx market o = some events)
    (he : e ∈ events) : e.clientId = o.clientId := by
  unfold trades? at h
  split at h
  · cases h
    cases he
  split at h
  · cases h
    cases he
  · obtain ⟨fee, _, h⟩ := Option.bind_eq_some_iff.mp h
    cases h
    obtain rfl := List.mem_singleton.mp he
    rfl

namespace Finding

variable {ctx : Trader} {t : Outcome} {time : Stamp} {r r' : OrderRegister} {found : Finding}
  {events : List OrderEvent} {f : Order → Order} {o : Order} {trade : Trade}

/-- The order that was found. -/
def order? : Finding → Option Order
  | nothing => none
  | ends order _ => some order
  | fills order _ _ _ => some order

/-- The trades that report what was found: those of a fill that is not counted yet. -/
def trades (ctx : Trader) : Finding → List Trade
  | fills order market fill _ =>
    if order.hasApplied fill.hash then []
    else
      match order.withFill? fill.hash fill.base fill.quote with
      | some o => ((fill.trades? ctx market o).getD []).filterMap OrderEvent.trade?
      | none => []
  | _ => []

theorem filterMap_trade?_of_enter (h : found.enter? ctx time r = some (r', events)) :
    events.filterMap OrderEvent.trade? = found.trades ctx := by
  cases found with
  | nothing =>
    cases h
    rfl
  | ends order state =>
    rw [← show _ = events from congrArg Prod.snd (Option.some.inj h)]
    exact r.filterMap_trade?_report order.clientId state false time
  | fills order market fill next =>
    simp only [enter?, Fill.count?] at h
    rw [trades]
    split at h
    · rename_i hcounted
      cases h
      rw [if_pos hcounted]
      rfl
    · rename_i hnew
      simp only [Option.bind_eq_bind, Option.bind_eq_some_iff, Option.pure_def, Option.some.injEq,
        Prod.mk.injEq] at h
      obtain ⟨o', ho', trades, htrades, _, rfl⟩ := h
      simp only [if_neg hnew, ho', htrades, List.filterMap_append,
        OrderRegister.filterMap_trade?_report, List.append_nil, Option.getD_some]

/-- The trades of a fill do not depend on the state of the order. -/
theorem trades_map (hf : Order.ChangesStateOnly f) (found : Finding) :
    (found.map f).trades ctx = found.trades ctx := by
  cases found with
  | nothing => rfl
  | ends order state => rfl
  | fills order market fill next =>
    rw [map, trades, trades, (hf order).1, Order.withFill?_state]
    cases order.withFill? fill.hash fill.base fill.quote <;> rfl

theorem clientId_of_trades (h : trade ∈ found.trades ctx) :
    ∃ o, found.order? = some o ∧ trade.clientId = o.clientId := by
  cases found with
  | nothing => cases h
  | ends order state => cases h
  | fills order market fill next =>
    refine ⟨order, rfl, ?_⟩
    simp only [trades] at h
    split at h
    · cases h
    split at h
    · rename_i o' ho'
      rw [← Order.clientId_withFill? ho']
      cases htrades : fill.trades? ctx market o' with
      | none => simp [htrades] at h
      | some events =>
        rw [htrades, Option.getD_some] at h
        obtain ⟨e, he, htrade⟩ := List.mem_filterMap.mp h
        rw [← OrderEvent.clientId_of_trade? htrade]
        exact Fill.clientId_of_trades? htrades he
    · cases h

/-- Writing down what was found lets the orders go on. -/
theorem advances_enter (h : Trader.Found t r found)
    (henter : found.enter? ctx time r = some (r', events)) : r.Advances r' := by
  cases h with
  | nothing =>
    cases henter
    exact .refl r
  | ends =>
    rw [OrderRegister.eq_move_of_report (Option.some.inj henter)]
    exact OrderRegister.advances_move _ _ _
  | fills hs =>
    exact (Fill.counted (OrderRegister.find?_of_resolve? hs) (OrderRegister.live_of_resolve? hs)
      henter).1

/-- What comes in place of an order is tracked under its id. -/
theorem clientId_of_replaces {a : Order} (h : found.replaces? ctx = some (some a)) :
    ∃ o, found.order? = some o ∧ a.clientId = o.clientId := by
  cases found with
  | nothing => cases h
  | ends order state =>
    cases h
    exact ⟨order, rfl, rfl⟩
  | fills order market fill next =>
    refine ⟨order, rfl, ?_⟩
    simp only [replaces?] at h
    split at h
    · cases h
    · simp only [Option.bind_eq_bind, Option.bind_eq_some_iff, Option.pure_def,
        Option.some.injEq] at h
      obtain ⟨o', ho', _, _, rfl⟩ := h
      exact show o'.clientId = order.clientId from Order.clientId_withFill? ho'

end Finding

/-! ## What a part reads -/

namespace OrderRegister

variable {r : OrderRegister} {a : Order} {clientId : String} {n : UInt32}

/-- A sequence leads to an order that holds its own alone just where the order is live and carries
it. -/
theorem resolve?_eq_some_iff_of_sole (hs : r.Sole clientId) (ha : r.find? clientId = some a) :
    r.resolve? n = some a ↔ a.isLive = true ∧ a.sequence? = some n := by
  obtain rfl := clientId_of_find? ha
  refine ⟨fun h => (mem_carrying.mp (mem_carrying_of_resolve? h)).2, fun h => ?_⟩
  have hmem : a ∈ r.carrying n := mem_carrying.mpr ⟨ha, h⟩
  refine resolve?_eq_some_iff_only.mpr fun b => ⟨fun hb => ?_, fun hb => hb ▸ hmem⟩
  have hfind := (mem_carrying.mp hb).1
  rw [hs n a hmem rfl b hb, ha] at hfind
  exact (Option.some.inj hfind).symm

end OrderRegister

/-- The sequence by which a transaction names the own offer of an account, or the one that it
cancels. -/
def Outcome.ownSequence? (o : Outcome) (account : String) : Option UInt32 :=
  if o.transaction.account = account then
    if o.transaction.kind = "OfferCreate" then some o.transaction.sequence
    else if o.transaction.kind = "OfferCancel" then o.transaction.offerSequence
    else none
  else none

/-- The sequence of the resting offer of an account that a node changed. -/
def AffectedNode.restingSequence? (n : AffectedNode) (account : String) : Option UInt32 :=
  if n.account? ≠ some account ∨ n.kind = .created then none else n.sequence?

namespace Part

/-- A part looks only at the order that one sequence leads to, and finds nothing where this leads to
none. -/
structure Reads (sequence? : Option UInt32) (part : Part) : Prop where
  same : ∀ r r' : OrderRegister, sequence?.bind r.resolve? = sequence?.bind r'.resolve? →
    part r = part r'
  nothing : ∀ r : OrderRegister, sequence?.bind r.resolve? = none → part r = some .nothing

theorem reads_nothing : Reads none fun _ => some .nothing := ⟨fun _ _ _ => rfl, fun _ _ => rfl⟩

variable {ctx : Trader} {t : Outcome} {time : Stamp} {sequence? : Option UInt32} {part : Part}
  {r : OrderRegister} {found : Finding} {o : Order}

/-- What a part finds is the order that its sequence leads to. It would find the same if nothing
else were tracked. -/
theorem Reads.order (h : part.Reads sequence?)
    (hfound : ∀ r found, part r = some found → Trader.Found t r found)
    (hpart : part r = some found) (ho : found.order? = some o) :
    sequence?.bind r.resolve? = some o := by
  cases hs : sequence?.bind r.resolve? with
  | none =>
    rw [h.nothing r hs] at hpart
    cases hpart
    cases ho
  | some a =>
    obtain ⟨n, rfl, hn⟩ := Option.bind_eq_some_iff.mp hs
    have hcarried := OrderRegister.mem_carrying.mp (OrderRegister.mem_carrying_of_resolve? hn)
    have hone := OrderRegister.oneLivePerSequence_of_one a
    have hlone : (OrderRegister.empty.track a).resolve? n = some a :=
      (OrderRegister.resolve?_eq_some_iff hone).mpr
        (OrderRegister.mem_carrying.mpr ⟨OrderRegister.find?_track_self _ a, hcarried.2⟩)
    have hsame : part (OrderRegister.empty.track a) = some found :=
      (h.same _ r (hlone.trans hn.symm)).trans hpart
    have honly : ∀ m b, (OrderRegister.empty.track a).resolve? m = some b → b = a := by
      intro m b hb
      have hfind := OrderRegister.find?_of_resolve? hb
      rw [OrderRegister.find?_track] at hfind
      split at hfind
      · exact (Option.some.inj hfind).symm
      · cases hfind
    cases hfound _ found hsame with
    | nothing => cases ho
    | ends hm =>
      cases ho
      rw [honly _ _ hm]
    | fills hm =>
      cases ho
      rw [honly _ _ hm]

end Part

namespace Trader

variable {ctx : Trader} {t : Outcome} {time : Stamp}

theorem reads_createFinding :
    Part.Reads (some t.transaction.sequence) (ctx.createFinding? t time) where
  same r r' h := by
    simp only [Option.bind_some] at h
    simp only [createFinding?, h]
  nothing r h := by
    simp only [Option.bind_some] at h
    simp only [createFinding?, h]

theorem reads_cancelFinding :
    Part.Reads t.transaction.offerSequence fun r => some (cancelFinding t r) where
  same r r' h := by simp only [cancelFinding, h]
  nothing r h := by simp only [cancelFinding, h]

theorem reads_ownFinding :
    Part.Reads (t.ownSequence? ctx.account) (ctx.ownFinding? t time) := by
  unfold ownFinding? Outcome.ownSequence?
  split
  · split
    · exact reads_createFinding
    · split
      · exact reads_cancelFinding
      · exact Part.reads_nothing
  · exact Part.reads_nothing

theorem reads_nodeFinding (n : AffectedNode) :
    Part.Reads (n.restingSequence? ctx.account) (ctx.nodeFinding? t time n) := by
  unfold nodeFinding? AffectedNode.restingSequence?
  split
  · exact Part.reads_nothing
  cases n.sequence? with
  | none => exact Part.reads_nothing
  | some sequence =>
    refine ⟨fun r r' h => ?_, fun r h => ?_⟩
    · simp only [Option.bind_some] at h
      simp only [h]
    · simp only [Option.bind_some] at h
      simp only [h]

theorem reads_parts : ∀ part ∈ ctx.parts t time, ∃ sequence?, part.Reads sequence? := by
  intro part hpart
  rcases List.mem_cons.mp hpart with rfl | hpart
  · exact ⟨_, reads_ownFinding⟩
  · split at hpart
    · obtain ⟨n, _, rfl⟩ := List.mem_map.mp hpart
      exact ⟨_, reads_nodeFinding n⟩
    · cases hpart

end Trader

/-! ## One order by itself -/

namespace OrderRegister

open OrderEvent (tradesOf)

/-- The second register holds one order of the first and no other; it may be opened in only one of
them. In the first the order holds its sequence alone. -/
structure Isolates (clientId : String) (r l : OrderRegister) : Prop where
  sole : r.Sole clientId
  order : ∃ a b, r.find? clientId = some a ∧ l.find? clientId = some b ∧ a.opened = b.opened
  only : ∀ x, x ≠ clientId → l.find? x = none

variable {ctx : Trader} {t : Outcome} {time : Stamp} {sequence? : Option UInt32} {part : Part}
  {parts : List Part} {r r' l : OrderRegister} {found : Finding} {a b : Order} {clientId : String}
  {n : UInt32} {events : List OrderEvent} {fills : List Fill}

theorem isolates_track (ha : r.find? clientId = some a) (hs : r.Sole clientId) :
    Isolates clientId r (empty.track a) := by
  obtain rfl := clientId_of_find? ha
  refine ⟨hs, ⟨a, a, ha, find?_track_self _ a, rfl⟩, fun x hx => ?_⟩
  rw [find?_track, if_neg hx]
  rfl

namespace Isolates

/-- The single order holds its sequence alone, too. -/
theorem sole_alone (h : Isolates clientId r l) : l.Sole clientId := by
  intro n o _ _ c hc
  by_contra hne
  have hfind := (mem_carrying.mp hc).1
  rw [h.only _ hne] at hfind
  cases hfind

/-- A sequence leads to the order in both registers, or in none of them. -/
theorem resolve?_iff (h : Isolates clientId r l) (ha : r.find? clientId = some a)
    (hb : l.find? clientId = some b) (hab : a.opened = b.opened) :
    l.resolve? n = some b ↔ r.resolve? n = some a := by
  rw [resolve?_eq_some_iff_of_sole h.sole ha, resolve?_eq_some_iff_of_sole h.sole_alone hb,
    Order.isLive_eq_of_opened_eq hab, Order.sequence?_eq_of_opened_eq hab]

/-- The same order put in place of the single one in both, or nothing. -/
theorem replaces {r' l' : OrderRegister} {w : Option Order} (h : Isolates clientId r l)
    (hr : Replaces w r r') (hl : Replaces w l l') (hw : ∀ c, w = some c → c.clientId = clientId)
    (hs : r'.Sole clientId) : Isolates clientId r' l' := by
  cases w with
  | none =>
    obtain ⟨a, b, ha, hb, hab⟩ := h.order
    exact ⟨hs, ⟨a, b, (hr _).trans ha, (hl _).trans hb, hab⟩,
      fun x hx => (hl x).trans (h.only x hx)⟩
  | some c =>
    obtain rfl := hw c rfl
    refine ⟨hs, ⟨c, c, (hr _).trans (if_pos rfl), (hl _).trans (if_pos rfl), rfl⟩, fun x hx => ?_⟩
    rw [hl x, if_neg hx]
    exact h.only x hx

section

variable (h : Isolates clientId r l) (hreads : part.Reads sequence?)
  (hfound : ∀ r found, part r = some found → Trader.Found t r found)
  (hpart : part r = some found) (henter : found.enter? ctx time r = some (r', events))
include h hreads hfound hpart henter

/-- A part whose sequence leads to the order does the same in both registers. -/
theorem part_here (hblind : part.Blind) (ha : r.find? clientId = some a)
    (hs : sequence?.bind r.resolve? = some a) :
    ∃ found' l' events', part l = some found' ∧ found'.enter? ctx time l = some (l', events') ∧
      Isolates clientId r' l' ∧ tradesOf clientId events' = tradesOf clientId events := by
  obtain ⟨_, b, hf, hb, hab⟩ := h.order
  obtain rfl := Option.some.inj (ha.symm.trans hf)
  obtain rfl := clientId_of_find? ha
  have hone := isolates_track ha h.sole
  obtain ⟨n, rfl, hn⟩ := Option.bind_eq_some_iff.mp hs
  have hlone : (empty.track a).resolve? n = some a :=
    (hone.resolve?_iff ha (find?_track_self _ a) rfl).mpr hn
  -- the lone order is in the state that it has in the second register
  have hstate : b.state.isTerminal = a.state.isTerminal := by
    simpa [Order.isLive] using Order.isLive_eq_of_opened_eq hab
  have hchanges := Order.changesStateOnly_restate (o := a) hstate
  have hmaps : (empty.track a).Maps (a.restate b.state) l := by
    intro x
    rw [find?_track]
    by_cases hx : x = a.clientId
    · rw [if_pos hx, hx, hb, Option.map_some, Order.restate, if_pos rfl,
        ← Order.eq_of_opened_eq hab]
    · rw [if_neg hx, h.only x hx]
      rfl
  have hl : part l = some (found.map (a.restate b.state)) := by
    rw [hblind _ _ l hchanges hmaps, hreads.same _ r (hlone.trans hn.symm), hpart]
    rfl
  obtain ⟨w, hw, hreplaces⟩ := Finding.replaces_of_enter (hfound r found hpart) henter
  have hrel := Finding.rel_enter ctx time (hfound l _ hl)
  rw [Finding.replaces?_map hchanges (hfound r found hpart), hw] at hrel
  obtain ⟨⟨l', events'⟩, hl', hreplaces'⟩ := exists_of_rel_some hrel
  refine ⟨_, l', events', hl, hl', h.replaces hreplaces hreplaces' ?_ ?_, ?_⟩
  · rintro c rfl
    obtain ⟨o, ho, hid⟩ := Finding.clientId_of_replaces hw
    obtain rfl := Option.some.inj (hn.symm.trans (hreads.order hfound hpart ho))
    exact hid
  · exact (Finding.advances_enter (hfound r found hpart) henter).descends.sole h.sole
  · rw [tradesOf, tradesOf, Finding.filterMap_trade?_of_enter hl',
      Finding.filterMap_trade?_of_enter henter, Finding.trades_map hchanges]

/-- A part whose sequence does not lead to the order leaves it alone. -/
theorem part_elsewhere (ha : r.find? clientId = some a)
    (hs : sequence?.bind r.resolve? ≠ some a) :
    part l = some .nothing ∧ Isolates clientId r' l ∧ tradesOf clientId events = [] := by
  obtain ⟨_, b, hf, hb, hab⟩ := h.order
  obtain rfl := Option.some.inj (ha.symm.trans hf)
  obtain rfl := clientId_of_find? ha
  have hother : ∀ o, found.order? = some o → o.clientId ≠ a.clientId := by
    intro o ho hid
    have hso := hreads.order hfound hpart ho
    obtain ⟨n, rfl, hn⟩ := Option.bind_eq_some_iff.mp hso
    have hfo := find?_of_resolve? hn
    rw [hid, ha] at hfo
    obtain rfl := Option.some.inj hfo
    exact hs hso
  refine ⟨hreads.nothing l ?_, ⟨?_, ⟨a, b, ?_, hb, hab⟩, h.only⟩, ?_⟩
  · refine Option.eq_none_iff_forall_ne_some.mpr fun c hc => ?_
    obtain ⟨n, rfl, hn⟩ := Option.bind_eq_some_iff.mp hc
    have hfc := find?_of_resolve? hn
    by_cases hid : c.clientId = a.clientId
    · rw [hid, hb] at hfc
      obtain rfl := Option.some.inj hfc
      exact hs ((h.resolve?_iff ha hb hab).mp hn)
    · rw [h.only _ hid] at hfc
      cases hfc
  · exact (Finding.advances_enter (hfound r found hpart) henter).descends.sole h.sole
  · obtain ⟨w, hw, hreplaces⟩ := Finding.replaces_of_enter (hfound r found hpart) henter
    cases w with
    | none => exact (hreplaces _).trans ha
    | some c =>
      obtain ⟨o, ho, hid⟩ := Finding.clientId_of_replaces hw
      rw [hreplaces _, if_neg fun hc => hother o ho (hid.symm.trans hc.symm)]
      exact ha
  · rw [tradesOf, Finding.filterMap_trade?_of_enter henter]
    refine List.filter_eq_nil_iff.mpr fun trade htrade => ?_
    obtain ⟨o, ho, hid⟩ := Finding.clientId_of_trades htrade
    simpa [hid] using hother o ho

end

/-- What the parts of a transaction do to the order, they do to it by itself. -/
theorem trace (hparts : ∀ part ∈ parts, (∃ sequence?, part.Reads sequence?) ∧ part.Blind ∧
      ∀ r found, part r = some found → Trader.Found t r found) (h : Isolates clientId r l)
    (htrace : Part.trace? ctx time r parts = some ((r', events), fills)) :
    ∃ l' events' fills', Part.trace? ctx time l parts = some ((l', events'), fills') ∧
      Isolates clientId r' l' ∧ tradesOf clientId events' = tradesOf clientId events := by
  induction parts generalizing r l events fills with
  | nil =>
    cases htrace
    exact ⟨l, [], [], rfl, h, rfl⟩
  | cons part parts ih =>
    simp only [Part.trace?, Option.bind_eq_bind, Option.bind_eq_some_iff, Option.pure_def,
      Option.some.injEq, Prod.mk.injEq, Prod.exists] at htrace
    obtain ⟨found, hpart, r₁, first, henter, _, rest, _, hrest, ⟨rfl, rfl⟩, rfl⟩ := htrace
    obtain ⟨⟨sequence?, hreads⟩, hblind, hfound⟩ := hparts part List.mem_cons_self
    obtain ⟨a, _, ha, _⟩ := h.order
    obtain ⟨found', l₁, first', hpart', henter', h₁, hfirst⟩ : ∃ found' l₁ first',
        part l = some found' ∧ found'.enter? ctx time l = some (l₁, first') ∧
          Isolates clientId r₁ l₁ ∧ tradesOf clientId first' = tradesOf clientId first := by
      by_cases hs : sequence?.bind r.resolve? = some a
      · exact h.part_here hreads hfound hpart henter hblind ha hs
      · obtain ⟨hnothing, h₁, hnone⟩ := h.part_elsewhere hreads hfound hpart henter ha hs
        exact ⟨_, l, [], hnothing, rfl, h₁, hnone.symm⟩
    obtain ⟨l', rest', fills', hrest', h', hlater⟩ :=
      ih (fun p hp => hparts p (List.mem_cons_of_mem _ hp)) h₁ hrest
    refine ⟨l', first' ++ rest', found'.recorded ++ fills', ?_, h', ?_⟩
    · simp only [Part.trace?, hpart', henter', hrest', Option.bind_eq_bind, Option.bind_some]
      rfl
    · rw [OrderEvent.tradesOf_append, OrderEvent.tradesOf_append, hfirst, hlater]

/-- What a transaction does to an order that holds its sequence alone, it does to the order by
itself, and with the same trades. -/
theorem process (h : Isolates clientId r l) (hprocess : ctx.process? t r = some (r', events)) :
    ∃ l' events', ctx.process? t l = some (l', events') ∧ Isolates clientId r' l' ∧
      tradesOf clientId events' = tradesOf clientId events := by
  rw [Trader.process?_eq_trace] at hprocess
  obtain ⟨⟨_, fills⟩, htrace, hfirst⟩ := Option.map_eq_some_iff.mp hprocess
  cases hfirst
  rw [Trader.process?_eq_trace]
  unfold Trader.trace? at htrace ⊢
  split at htrace
  · rename_i hv
    cases htrace
    rw [if_pos hv]
    exact ⟨l, [], rfl, h, rfl⟩
  · rename_i hv
    obtain ⟨time, htime, htrace⟩ := Option.bind_eq_some_iff.mp htrace
    obtain ⟨l', events', fills', htrace', h', htrades⟩ := h.trace (fun part hpart =>
      ⟨Trader.reads_parts part hpart, Trader.blind_parts part hpart,
        Trader.found_parts part hpart⟩) htrace
    refine ⟨l', events', ?_, h', htrades⟩
    rw [if_neg hv, htime, Option.bind_eq_bind, Option.bind_some, htrace']
    rfl

end Isolates

end OrderRegister

end OfferDesk
