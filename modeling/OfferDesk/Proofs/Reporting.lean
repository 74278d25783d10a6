-- The events of a run tell all that becomes of the orders. Whoever sees only them knows the state
-- of each order and what was executed of it, is told of each fill once, and hears nothing more of
-- an order after its end.
import Mathlib.Data.List.Chain
import OfferDesk.Proofs.Decimals
import OfferDesk.Proofs.Findings
import OfferDesk.Proofs.Replay

namespace OfferDesk

/-! ## Sums of reported amounts -/

namespace Decimal

/-- The same number in the same places, or a zero in whatever places. -/
def Alike (a b : Decimal) : Prop := a = b ∨ a.isZero = true ∧ b.isZero = true

/-- A number with amounts added to it one after another, where the sums are in range. -/
def sumFrom? (start : Decimal) (amounts : List Decimal) : Option Decimal :=
  amounts.foldlM add? start

variable {a b c s : Decimal} {xs ys : List Decimal}

theorem Alike.refl (a : Decimal) : a.Alike a := Or.inl rfl

theorem Alike.trans (h : a.Alike b) (h' : b.Alike c) : a.Alike c := by
  rcases h with rfl | ⟨ha, hb⟩
  · exact h'
  · rcases h' with rfl | ⟨_, hc⟩
    · exact Or.inr ⟨ha, hb⟩
    · exact Or.inr ⟨ha, hc⟩

/-- A zero leaves what is added to it as it is written, so its own places do not matter. -/
theorem Alike.add?_eq (h : a.Alike b) (c : Decimal) : a.add? c = b.add? c := by
  rcases h with rfl | ⟨ha, hb⟩
  · rfl
  · rw [add?, if_pos ha, add?, if_pos hb]

theorem Alike.sumFrom? (h : a.Alike b) (hs : a.sumFrom? xs = some s) :
    ∃ t, b.sumFrom? xs = some t ∧ s.Alike t := by
  cases xs with
  | nil =>
    cases hs
    exact ⟨b, rfl, h⟩
  | cons x xs =>
    refine ⟨s, ?_, .refl s⟩
    rw [Decimal.sumFrom?, List.foldlM_cons, ← h.add?_eq, ← List.foldlM_cons]
    exact hs

theorem alike_of_add?_zero (hb : b.isZero = true) (h : a.add? b = some c) : a.Alike c := by
  by_cases ha : a.isZero = true
  · rw [add?, if_pos ha] at h
    cases h
    exact Or.inr ⟨ha, hb⟩
  · rw [add?, if_neg ha, if_pos hb] at h
    cases h
    exact .refl a

theorem sumFrom?_append : a.sumFrom? (xs ++ ys) = (a.sumFrom? xs).bind (·.sumFrom? ys) := by
  rw [sumFrom?, List.foldlM_append]
  rfl

theorem sumFrom?_singleton (a b : Decimal) : a.sumFrom? [b] = a.add? b :=
  bind_pure (a.add? b)

end Decimal

/-! ## Logs -/

namespace OrderEvent

/-- The state that an event reports. -/
def state? : OrderEvent → Option OrderState
  | order u => some u.state
  | trade _ => none

/-- The trade that an event reports. -/
def trade? : OrderEvent → Option Trade
  | order _ => none
  | trade t => some t

/-- Whether an event reports that its order has ended. -/
def isEnd (e : OrderEvent) : Bool := e.state?.any (·.isTerminal)

end OrderEvent

/-- An event with the hash of the transaction that brought it. -/
structure LoggedEvent where
  hash : String
  event : OrderEvent
deriving DecidableEq

namespace LoggedEvent

variable {log log' : List LoggedEvent}

/-- The events about an order. -/
def about (log : List LoggedEvent) (clientId : String) : List LoggedEvent :=
  log.filter (·.event.clientId = clientId)

/-- The states that a log reports. -/
def states (log : List LoggedEvent) : List OrderState := log.filterMap (·.event.state?)

/-- The trades that a log reports. -/
def trades (log : List LoggedEvent) : List Trade := log.filterMap (·.event.trade?)

/-- The transactions of these trades. -/
def tradeHashes (log : List LoggedEvent) : List String :=
  (log.filter (·.event.trade?.isSome)).map (·.hash)

theorem about_append (clientId : String) :
    about (log ++ log') clientId = about log clientId ++ about log' clientId :=
  List.filter_append ..

theorem states_append : states (log ++ log') = states log ++ states log' := List.filterMap_append ..

theorem trades_append : trades (log ++ log') = trades log ++ trades log' := List.filterMap_append ..

theorem tradeHashes_append : tradeHashes (log ++ log') = tradeHashes log ++ tradeHashes log' := by
  rw [tradeHashes, List.filter_append, List.map_append]
  rfl

theorem about_of_all {clientId : String} (h : ∀ e ∈ log, e.event.clientId = clientId) :
    about log clientId = log :=
  List.filter_eq_self.mpr fun e he => by simpa using h e he

theorem about_of_none {clientId : String} (h : ∀ e ∈ log, e.event.clientId ≠ clientId) :
    about log clientId = [] :=
  List.filter_eq_nil_iff.mpr fun e he => by simpa using h e he

end LoggedEvent

/-! ## What a log tells of an order -/

open LoggedEvent

/-- The events of a log tell how an order has become another. Its state is the last one that was
reported, by moves that are allowed; what was executed of it has grown by the reported trades; a
transaction has at most one trade; and its end is the last that is told of it. -/
structure Tells (log : List LoggedEvent) (o o' : Order) : Prop where
  advances : o.Advances o'
  state : o'.state = (states log).getLastD o.state
  moves : (o.state :: states log).IsChain fun s s' => s ≠ s' → s.canMoveTo s' = true
  base : ∃ sum, o.executedBase.sumFrom? ((trades log).map (·.amount)) = some sum ∧
    sum.Alike o'.executedBase
  quote : ∃ sum, o.executedQuote.sumFrom? ((trades log).map (·.quoteAmount)) = some sum ∧
    sum.Alike o'.executedQuote
  once : (tradeHashes log).Nodup
  fresh : ∀ hash ∈ tradeHashes log, o.hasApplied hash = false ∧ o'.hasApplied hash = true
  last : log.Pairwise fun e _ => e.event.isEnd = false
  silent : o.isLive = false → log = []

/-- Two chains make one where the second starts from the last of the first. -/
theorem isChain_append_getLastD {α : Type} {R : α → α → Prop} {a : α} {l l' : List α}
    (h : (a :: l).IsChain R) (h' : (l.getLastD a :: l').IsChain R) : (a :: (l ++ l')).IsChain R := by
  induction l generalizing a with
  | nil => exact h'
  | cons b l ih =>
    obtain ⟨hab, hbl⟩ := List.isChain_cons_cons.mp h
    rw [List.getLastD_cons] at h'
    exact List.isChain_cons_cons.mpr ⟨hab, ih hbl h'⟩

theorem getLastD_append {α : Type} (a : α) (l l' : List α) :
    (l ++ l').getLastD a = l'.getLastD (l.getLastD a) := by
  induction l generalizing a with
  | nil => rfl
  | cons b l ih => rw [List.cons_append, List.getLastD_cons, List.getLastD_cons, ih]

namespace Tells

variable {log log' : List LoggedEvent} {o o' o'' : Order}

theorem refl (o : Order) : Tells [] o o where
  advances := .refl o
  state := rfl
  moves := List.isChain_singleton _
  base := ⟨_, rfl, .refl _⟩
  quote := ⟨_, rfl, .refl _⟩
  once := List.nodup_nil
  fresh _ h := nomatch h
  last := List.Pairwise.nil
  silent _ := rfl

/-- Sums of amounts that are added up one log after the other. -/
theorem sum_append {a b c : Decimal} {xs ys : List Decimal}
    (h : ∃ sum, a.sumFrom? xs = some sum ∧ sum.Alike b)
    (h' : ∃ sum, b.sumFrom? ys = some sum ∧ sum.Alike c) :
    ∃ sum, a.sumFrom? (xs ++ ys) = some sum ∧ sum.Alike c := by
  obtain ⟨s, hs, hsb⟩ := h
  obtain ⟨t, ht, htc⟩ := h'
  have hbs : b.Alike s := hsb.elim (fun h => Or.inl h.symm) fun h => Or.inr h.symm
  obtain ⟨u, hu, htu⟩ := hbs.sumFrom? ht
  have hut : u.Alike t := htu.elim (fun h => Or.inl h.symm) fun h => Or.inr h.symm
  exact ⟨u, by rw [Decimal.sumFrom?_append, hs, Option.bind_some, hu], hut.trans htc⟩

/-- An order that was told to have ended has ended. -/
theorem not_live_of_end (h : Tells log o o') {e : LoggedEvent} (he : e ∈ log)
    (hend : e.event.isEnd = true) : o'.isLive = false := by
  -- nothing follows the end, so its state is the last one
  obtain ⟨before, after, rfl⟩ := List.append_of_mem he
  have hafter : after = [] := by
    refine List.eq_nil_iff_forall_not_mem.mpr fun x hx => ?_
    have hno := (List.pairwise_cons.mp (List.pairwise_append.mp h.last).2.1).1 x hx
    rw [hend] at hno
    cases hno
  subst hafter
  have hstate := h.state
  rw [states_append, getLastD_append] at hstate
  cases hs : e.event.state? with
  | none => simp [OrderEvent.isEnd, hs] at hend
  | some s =>
    have hterm : s.isTerminal = true := by simpa [OrderEvent.isEnd, hs] using hend
    have hlast : o'.state = s := by simpa [states, hs] using hstate
    simp [Order.isLive, hlast, hterm]

theorem append (h : Tells log o o') (h' : Tells log' o' o'') : Tells (log ++ log') o o'' where
  advances := h.advances.trans h'.advances
  state := by rw [h'.state, h.state, states_append, getLastD_append]
  moves := by
    rw [states_append]
    refine isChain_append_getLastD h.moves ?_
    rw [← h.state]
    exact h'.moves
  base := by
    rw [trades_append, List.map_append]
    exact sum_append h.base h'.base
  quote := by
    rw [trades_append, List.map_append]
    exact sum_append h.quote h'.quote
  once := by
    rw [tradeHashes_append]
    refine List.nodup_append.mpr ⟨h.once, h'.once, fun x hx y hy hxy => ?_⟩
    subst hxy
    have hcounted := (h.fresh x hx).2
    rw [(h'.fresh x hy).1] at hcounted
    cases hcounted
  fresh hash hmem := by
    rw [tradeHashes_append] at hmem
    rcases List.mem_append.mp hmem with hm | hm
    · exact ⟨(h.fresh hash hm).1, h'.advances.counted hash (h.fresh hash hm).2⟩
    · refine ⟨?_, (h'.fresh hash hm).2⟩
      by_contra hc
      have hcounted := h.advances.counted hash (by simpa using hc)
      rw [(h'.fresh hash hm).1] at hcounted
      cases hcounted
  last := by
    refine List.pairwise_append.mpr ⟨h.last, h'.last, fun e he x hx => ?_⟩
    by_contra hend
    rw [h'.silent (h.not_live_of_end he (by simpa using hend))] at hx
    cases hx
  silent hl := by
    have hl' : o'.isLive = false := by rw [h.advances.ended hl, hl]
    rw [h.silent hl, h'.silent hl']
    rfl

end Tells

/-! ## What a log tells of a register -/

/-- A log explains how a register has become another: its orders are still there, what is said
about each tells what has become of it, and nothing is said of any other. -/
structure Explains (log : List LoggedEvent) (r r' : OrderRegister) : Prop where
  tells : ∀ clientId o, r.find? clientId = some o →
    ∃ o', r'.find? clientId = some o' ∧ Tells (about log clientId) o o'
  others : ∀ clientId, r.find? clientId = none →
    r'.find? clientId = none ∧ about log clientId = []

namespace Explains

variable {log log' : List LoggedEvent} {r r' r'' : OrderRegister} {o o' : Order}

theorem refl (r : OrderRegister) : Explains [] r r :=
  ⟨fun _ o ho => ⟨o, ho, .refl o⟩, fun _ ho => ⟨ho, rfl⟩⟩

theorem append (h : Explains log r r') (h' : Explains log' r' r'') :
    Explains (log ++ log') r r'' where
  tells clientId o ho := by
    obtain ⟨o', ho', ht⟩ := h.tells clientId o ho
    obtain ⟨o'', ho'', ht'⟩ := h'.tells clientId o' ho'
    exact ⟨o'', ho'', by rw [about_append]; exact ht.append ht'⟩
  others clientId ho := by
    obtain ⟨ho', hn⟩ := h.others clientId ho
    obtain ⟨ho'', hn'⟩ := h'.others clientId ho'
    exact ⟨ho'', by rw [about_append, hn, hn']; rfl⟩

/-- A log about one order explains a register in which only that order is another. -/
theorem of_one (ho : r.find? o.clientId = some o) (ho' : r'.find? o.clientId = some o')
    (hsame : ∀ x, x ≠ o.clientId → r'.find? x = r.find? x)
    (habout : ∀ e ∈ log, e.event.clientId = o.clientId) (ht : Tells log o o') :
    Explains log r r' where
  tells clientId a ha := by
    by_cases hid : clientId = o.clientId
    · subst hid
      rw [ho] at ha
      cases ha
      exact ⟨o', ho', by rw [about_of_all habout]; exact ht⟩
    · refine ⟨a, by rw [hsame clientId hid, ha], ?_⟩
      rw [about_of_none fun e he => by rw [habout e he]; exact Ne.symm hid]
      exact .refl a
  others clientId ha := by
    have hid : clientId ≠ o.clientId := by
      rintro rfl
      rw [ho] at ha
      cases ha
    refine ⟨by rw [hsame clientId hid, ha], about_of_none fun e he => ?_⟩
    rw [habout e he]
    exact Ne.symm hid

end Explains

/-! ## One part of a transaction -/

/-- The events that a transaction brings, with its hash. -/
def Outcome.logged (o : Outcome) (events : List OrderEvent) : List LoggedEvent :=
  events.map (⟨o.hash, ·⟩)

theorem Outcome.logged_append (o : Outcome) (events events' : List OrderEvent) :
    o.logged (events ++ events') = o.logged events ++ o.logged events' := List.map_append

/-- A fill that has a price in range, or that fills nothing at all. -/
def Fill.Reportable (f : Fill) : Prop :=
  f.base.isPositive = true ∧ (f.quote.div? f.base).isSome = true ∨
    f.base.isZero = true ∧ f.quote.isZero = true

instance (f : Fill) : Decidable f.Reportable := inferInstanceAs (Decidable (_ ∨ _))

variable {r r' : OrderRegister} {order : Order} {events : List OrderEvent} {time : Stamp}

/-- The report of one state tells of an order that is in it afterwards, and has moved there if it
was not in it before. -/
theorem tells_update (tx : Outcome) {o o' : Order} (ha : o.Advances o') (hl : o.isLive = true)
    (hmove : o.state ≠ o'.state → o.state.canMoveTo o'.state = true)
    (hbase : o'.executedBase = o.executedBase) (hquote : o'.executedQuote = o.executedQuote) :
    Tells (tx.logged [o'.update time]) o o' where
  advances := ha
  state := rfl
  moves := List.isChain_cons_cons.mpr ⟨hmove, List.isChain_singleton _⟩
  base := ⟨_, rfl, by rw [hbase]; exact .refl _⟩
  quote := ⟨_, rfl, by rw [hquote]; exact .refl _⟩
  once := List.nodup_nil
  fresh _ h := nomatch h
  last := List.pairwise_singleton _ _
  silent hd := by
    rw [hl] at hd
    cases hd

/-- A report explains what it does to the register. -/
theorem explains_report (tx : Outcome) {state : OrderState} {isFill : Bool}
    (ho : r.find? order.clientId = some order) (hl : order.isLive = true)
    (h : r.report order.clientId state isFill time = (r', events)) :
    Explains (tx.logged events) r r' := by
  unfold OrderRegister.report at h
  split at h
  · rename_i r₁ o' hm
    cases h
    obtain ⟨a, ha, hne, hmove, rfl, rfl⟩ := OrderRegister.move?_eq_some_iff.mp hm
    rw [ho] at ha
    cases ha
    refine .of_one ho (OrderRegister.find?_track_self r _) (fun x hx => ?_) ?_
      (tells_update tx (Order.advances_moved hmove) hl (fun _ => hmove) rfl rfl)
    · rw [OrderRegister.find?_track, if_neg hx]
    · simp [Outcome.logged, Order.update, OrderEvent.clientId]
  · rw [ho] at h
    dsimp only at h
    split at h
    · rename_i hsame
      cases h
      refine .of_one ho ho (fun _ _ => rfl) ?_
        (tells_update tx (.refl order) hl (fun hne => absurd rfl hne) rfl rfl)
      simp [Outcome.logged, Order.update, OrderEvent.clientId]
    · cases h
      exact .refl r

/-- The trades of a reportable fill: one with its amounts, or none where it fills nothing. -/
theorem Fill.trades?_of_reportable {f : Fill} {ctx : Trader} {market : Market}
    (hf : f.Reportable) (h : f.trades? ctx market order = some events) :
    (∃ t, events = [.trade t] ∧ t.clientId = order.clientId ∧ t.amount = f.base ∧
      t.quoteAmount = f.quote) ∨
    (events = [] ∧ f.base.isZero = true ∧ f.quote.isZero = true) := by
  unfold trades? at h
  rcases hf with ⟨hpos, hprice⟩ | ⟨hbase, hquote⟩
  · obtain ⟨price, hp⟩ := Option.isSome_iff_exists.mp hprice
    simp only [hpos, hp, Bool.not_true, Bool.false_eq_true, if_false, Option.bind_eq_bind,
      Option.bind_eq_some_iff, Option.pure_def, Option.some.injEq] at h
    obtain ⟨fee, _, rfl⟩ := h
    exact Or.inl ⟨_, rfl, rfl, rfl, rfl⟩
  · rw [Decimal.not_isPositive_of_isZero hbase] at h
    cases h
    exact Or.inr ⟨rfl, hbase, hquote⟩

/-- The trade of a fill tells what the fill has added to an order. -/
theorem tells_fill (tx : Outcome) {f : Fill} {ctx : Trader} {market : Market} {o' : Order}
    (hhash : f.hash = tx.hash) (hl : order.isLive = true) (hnew : order.hasApplied f.hash = false)
    (hf : f.Reportable) (ho' : order.withFill? f.hash f.base f.quote = some o')
    (h : f.trades? ctx market o' = some events) : Tells (tx.logged events) order o' := by
  have ha := Order.advances_withFill? hl ho'
  have hcounted := Order.hasApplied_withFill? ho'
  obtain ⟨b, q, hb, hq, rfl⟩ := Order.withFill?_eq_some_iff.mp ho'
  rcases Fill.trades?_of_reportable hf h with ⟨t, rfl, _, hamount, hquote⟩ | ⟨rfl, hzb, hzq⟩
  · exact {
      advances := ha
      state := rfl
      moves := List.isChain_singleton _
      base := ⟨b, by rw [← hb, ← hamount]; exact Decimal.sumFrom?_singleton _ _, .refl b⟩
      quote := ⟨q, by rw [← hq, ← hquote]; exact Decimal.sumFrom?_singleton _ _, .refl q⟩
      once := List.nodup_singleton _
      fresh := by
        intro hash hm
        rw [List.mem_singleton.mp hm]
        rw [← hhash]
        exact ⟨hnew, hcounted⟩
      last := List.pairwise_singleton _ _
      silent := fun hd => by
        rw [hl] at hd
        cases hd }
  · exact {
      Tells.refl order with
      advances := ha
      state := rfl
      base := ⟨_, rfl, Decimal.alike_of_add?_zero hzb hb⟩
      quote := ⟨_, rfl, Decimal.alike_of_add?_zero hzq hq⟩
      fresh := fun _ h => nomatch h }

/-- What is recorded of a fill explains what it does to the register. -/
theorem explains_count (tx : Outcome) {f : Fill} {ctx : Trader} {market : Market}
    {next : Order → OrderState} (hhash : f.hash = tx.hash)
    (ho : r.find? order.clientId = some order) (hl : order.isLive = true)
    (hf : order.hasApplied f.hash = false → f.Reportable)
    (h : f.count? ctx market r order next = some (r', events)) :
    Explains (tx.logged events) r r' := by
  unfold Fill.count? at h
  split at h
  · cases h
    exact .refl r
  rename_i hnew
  replace hnew : order.hasApplied f.hash = false := by simpa using hnew
  simp only [Option.bind_eq_bind, Option.bind_eq_some_iff, Option.pure_def, Option.some.injEq,
    Prod.mk.injEq] at h
  obtain ⟨o', ho', trades, htrades, hr', rfl⟩ := h
  have hid : o'.clientId = order.clientId := Order.clientId_withFill? ho'
  have hlive : o'.isLive = true := by
    obtain ⟨_, _, _, _, rfl⟩ := Order.withFill?_eq_some_iff.mp ho'
    exact hl
  have hfirst : Explains (tx.logged trades) r (r.track o') := by
    refine .of_one ho (by rw [← hid]; exact OrderRegister.find?_track_self r o') ?_ ?_
      (tells_fill tx hhash hl hnew (hf hnew) ho' htrades)
    · intro x hx
      rw [OrderRegister.find?_track, if_neg (by rw [hid]; exact hx)]
    · rcases Fill.trades?_of_reportable (hf hnew) htrades with ⟨t, rfl, ht, _⟩ | ⟨rfl, _⟩
      · simp [Outcome.logged, OrderEvent.clientId, ht, hid]
      · simp [Outcome.logged]
  have hreport : (r.track o').report o'.clientId (next o') f.base.isPositive f.time = (r', _) :=
    Prod.ext hr' rfl
  rw [tx.logged_append]
  exact hfirst.append (explains_report tx (OrderRegister.find?_track_self r o') hlive hreport)

/-- What a part finds explains what it does to the register. -/
theorem Finding.explains {ctx : Trader} {tx : Outcome} {found : Finding} (hfits : found.Fits tx r)
    (hfills : ∀ f ∈ found.recorded, f.Reportable)
    (h : found.enter? ctx time r = some (r', events)) : Explains (tx.logged events) r r' := by
  cases found with
  | nothing =>
    cases h
    exact .refl r
  | ends o state => exact explains_report tx hfits.1 hfits.2 (Option.some.inj h)
  | fills o market f next =>
    refine explains_count tx hfits.2.2 hfits.1 hfits.2.1 (fun hnew => hfills f ?_) h
    simp [recorded, hnew]

/-! ## Transactions and runs -/

theorem Part.explains {ctx : Trader} {tx : Outcome} {parts : List Part} {fills : List Fill}
    (hparts : ∀ part ∈ parts, ∀ r found, part r = some found → found.Fits tx r)
    (h : trace? ctx time r parts = some ((r', events), fills))
    (hfills : ∀ f ∈ fills, f.Reportable) : Explains (tx.logged events) r r' := by
  induction parts generalizing r events fills with
  | nil =>
    cases h
    exact .refl _
  | cons part parts ih =>
    simp only [trace?, Option.bind_eq_bind, Option.bind_eq_some_iff, Option.pure_def,
      Option.some.injEq, Prod.mk.injEq, Prod.exists] at h
    obtain ⟨found, hfound, r₁, first, hfirst, _, rest, _, hrest, ⟨rfl, rfl⟩, rfl⟩ := h
    rw [tx.logged_append]
    exact (found.explains (hparts part List.mem_cons_self r found hfound)
      (fun f hf => hfills f (List.mem_append_left _ hf)) hfirst).append
      (ih (fun p hp => hparts p (List.mem_cons_of_mem _ hp)) hrest
        fun f hf => hfills f (List.mem_append_right _ hf))

namespace Trader

variable {ctx : Trader}

theorem explains_trace {tx : Outcome} {fills : List Fill}
    (h : ctx.trace? tx r = some ((r', events), fills)) (hfills : ∀ f ∈ fills, f.Reportable) :
    Explains (tx.logged events) r r' := by
  unfold trace? at h
  split at h
  · cases h
    exact .refl r
  · simp only [Option.bind_eq_bind, Option.bind_eq_some_iff] at h
    obtain ⟨time, _, h⟩ := h
    exact Part.explains fits_parts h hfills

/-- Takes in one transaction after another, each under the rules of its moment, with the log of
their events. -/
def run? (r : OrderRegister) : List (Trader × Outcome) → Option (OrderRegister × List LoggedEvent)
  | [] => some (r, [])
  | (ctx, tx) :: calls => do
    let (r, events) ← ctx.process? tx r
    let (r, log) ← run? r calls
    return (r, tx.logged events ++ log)

/-- The fills that one transaction after another records. -/
def recorded (r : OrderRegister) : List (Trader × Outcome) → List Fill
  | [] => []
  | (ctx, tx) :: calls =>
    match ctx.trace? tx r with
    | some ((r, _), fills) => fills ++ recorded r calls
    | none => []

/-- The log of a run explains what has become of the register, if every recorded fill has a price
in range or fills nothing. -/
theorem log_explains_register {calls : List (Trader × Outcome)} {log : List LoggedEvent}
    (h : run? r calls = some (r', log)) (hfills : ∀ f ∈ recorded r calls, f.Reportable) :
    Explains log r r' := by
  induction calls generalizing r log with
  | nil =>
    cases h
    exact .refl _
  | cons call calls ih =>
    obtain ⟨ctx, tx⟩ := call
    simp only [run?, Option.bind_eq_bind, Option.bind_eq_some_iff, Option.pure_def,
      Option.some.injEq, Prod.mk.injEq, Prod.exists] at h
    obtain ⟨r₁, events, hp, _, rest, hrest, rfl, rfl⟩ := h
    rw [process?_eq_trace] at hp
    obtain ⟨⟨_, fills⟩, htrace, rfl⟩ := Option.map_eq_some_iff.mp hp
    simp only [recorded, htrace] at hfills
    exact (explains_trace htrace fun f hf => hfills f (List.mem_append_left _ hf)).append
      (ih hrest fun f hf => hfills f (List.mem_append_right _ hf))

/-! A resting offer is taken from in part, and the transaction comes in twice. Another one takes
the rest. -/

def lastFill : Outcome where
  hash := "CD"
  transaction := ⟨"rTaker", "OfferCreate", 4, none, none, 0, none, none, none⟩
  engineResult := "tesSUCCESS"
  nodes := [{
    kind := .deleted
    entryType := .offer
    ledgerIndex := "I"
    before := {
      takerGets := some (.issued ⟨"SOLO", "rIssuer", "60"⟩)
      takerPays := some (.drops "30000000") }
    after := {
      account := some "rMe"
      sequence := some 7
      takerGets := some (.issued ⟨"SOLO", "rIssuer", "0"⟩)
      takerPays := some (.drops "0") } }]
  ledgerIndex := some 10
  validated := true
  date := none

def twoFills : List (Trader × Outcome) :=
  [RegisterStep.partialFill, RegisterStep.partialFill, lastFill].map (RegisterStep.soloTrader, ·)

open RegisterStep in
theorem log_of_two_fills : ∃ r' log,
    run? (OrderRegister.empty.track restingOrder) twoFills = some (r', log) ∧
    states log = [.partiallyFilled, .filled] ∧ tradeHashes log = ["AB", "CD"] ∧
    Explains log (OrderRegister.empty.track restingOrder) r' := by
  have hlog : (run? (OrderRegister.empty.track restingOrder) twoFills).map
      (fun x => (states x.2, tradeHashes x.2)) =
        some ([.partiallyFilled, .filled], ["AB", "CD"]) := by decide +kernel
  obtain ⟨⟨r', log⟩, h, hx⟩ := Option.map_eq_some_iff.mp hlog
  obtain ⟨hstates, hhashes⟩ := Prod.mk.inj hx
  exact ⟨r', log, h, hstates, hhashes, log_explains_register h (by decide +kernel)⟩

end Trader

end OfferDesk
