-- How a node tells what a transaction took of an offer. It names those former legs that changed,
-- but the gets leg alone decides whether the offer counts as changed. A former pays leg that is
-- named on its own is passed over, and an offer that goes with such a node counts as cancelled.
import OfferDesk.Proofs.Findings
import OfferDesk.Proofs.Patching
import OfferDesk.Proofs.Rounding

namespace OfferDesk

/-! ## Differences -/

namespace Decimal

variable {a c : Decimal}

/-- Between a number and itself there is no difference. -/
theorem isZero_of_sub?_self (h : a.sub? a = some c) : c.isZero = true := by
  unfold sub? add? at h
  split at h
  · rename_i hz
    cases h
    simpa [isZero, neg] using hz
  split at h
  · rename_i hz
    cases h
    simpa [isZero, neg] using hz
  · have hscale : max a.scale a.neg.scale ≤ maxScale := Nat.max_le.mpr ⟨a.scale_le, a.scale_le⟩
    obtain ⟨_, hm, _⟩ := places_of_nearest? hscale h
    have hnone : a.mantissa * pow10 a.neg.scale + a.neg.mantissa * pow10 a.scale = 0 := by
      show a.mantissa * pow10 a.scale + -a.mantissa * pow10 a.scale = 0
      ring
    rw [hnone, Int.zero_mul, ← Int.zero_mul, Quotient.halfEven_exact 0 (pow10_pos _)] at hm
    rw [isZero, hm]
    rfl

end Decimal

/-! ## Swapped legs -/

def Legs.swap (l : Legs) : Legs := ⟨l.pays, l.gets⟩

def AffectedNode.Change.swap (c : AffectedNode.Change) : AffectedNode.Change :=
  ⟨c.before.swap, c.paysAfter, c.getsAfter⟩

def ObjectFields.swapLegs (f : ObjectFields) : ObjectFields :=
  { f with takerGets := f.takerPays, takerPays := f.takerGets }

/-- The node with each leg in the place of the other, before and after. -/
def AffectedNode.swapLegs (n : AffectedNode) : AffectedNode :=
  { n with before := n.before.swapLegs, after := n.after.swapLegs }

/-! ## Former legs -/

/-- A former leg, as a node gives it: not at all, or in the currency that the leg has afterwards. -/
inductive Amount.Former (after : Amount) : Option WireAmount → Option Amount → Prop where
  | unnamed : after.Former none none
  | named {wire : WireAmount} {before : Amount} (read : wire.amount = .ok before)
    (same : after.currency.agreesWith before.currency = true) :
    after.Former (some wire) (some before)

/-- What was taken of a leg: nothing of one whose former value is not named, and of one whose former
value is, the difference between that and what is left. -/
inductive Amount.TakenOf (after taken : Amount) : Option Amount → Prop where
  | unnamed (same : taken.currency = after.currency) (zero : taken.value.isZero = true) :
    after.TakenOf taken none
  | named {before : Amount} (same : taken.currency = before.currency)
    (difference : before.value.sub? after.value = some taken.value) :
    after.TakenOf taken (some before)

/-- A leg whose former value is not named is taken to have been what it is. -/
theorem Amount.Former.or_after {after : Amount} {former? : Option WireAmount}
    {before? : Option Amount} {wire : WireAmount} (h : after.Former former? before?)
    (hread : wire.amount = .ok after) :
    ∃ w, (former? <|> some wire) = some w ∧ w.amount = .ok (before?.getD after) ∧
      after.currency.agreesWith (before?.getD after).currency = true := by
  cases h with
  | unnamed => exact ⟨wire, rfl, hread, after.currency.agreesWith_self⟩
  | named read same => exact ⟨_, rfl, read, same⟩

namespace AffectedNode

variable {n : AffectedNode} {gets? pays? : Option Amount} {after : Legs}

/-- The legs of a node can be compared: both read afterwards, and so do the former ones that it
names, in the same currencies. -/
structure Compares (n : AffectedNode) (gets? pays? : Option Amount) (after : Legs) : Prop where
  reads : n.Reads after
  gets : after.gets.Former n.before.takerGets gets?
  pays : after.pays.Former n.before.takerPays pays?

theorem Compares.swap (h : n.Compares gets? pays? after) :
    n.swapLegs.Compares pays? gets? after.swap :=
  ⟨⟨h.reads.pays, h.reads.gets⟩, h.pays, h.gets⟩

/-- There is a change just where the former gets leg is named. A former pays leg that is not named
is taken to be the one afterwards. -/
theorem Compares.change_eq (h : n.Compares gets? pays? after) (hkind : n.kind ≠ .created) :
    n.change = .ok (gets?.map fun gets =>
      ⟨⟨gets, pays?.getD after.pays⟩, after.gets.value, after.pays.value⟩) := by
  obtain ⟨⟨⟨getsWire, hgets, hgetsRead⟩, paysWire, hpays, hpaysRead⟩, hg, hp⟩ := h
  obtain ⟨formerWire, hformer, hformerRead, hagrees⟩ := hp.or_after hpaysRead
  generalize hbefore : n.before.takerGets = former at hg
  cases hg with
  | unnamed => simp [change, hkind, hbefore, pure, Except.pure]
  | named hread hsame =>
    simp only [change, hkind, if_false, hbefore, hread, hgets, hpays, hformer, hformerRead,
      legAfter_of_agrees hgetsRead hsame, legAfter_of_agrees hpaysRead hagrees, Except.mapError,
      bind, Except.bind, pure, Except.pure, Option.map_some]

/-- What was taken of a leg, where the difference is in range. -/
theorem takenOf_of_sub? {leg before : Amount} {former? : Option Amount} {value : Decimal}
    (hb : former?.getD leg = before) (h : before.value.sub? leg.value = some value) :
    leg.TakenOf ⟨before.currency, value⟩ former? := by
  cases former? with
  | none =>
    subst hb
    exact .unnamed rfl (Decimal.isZero_of_sub?_self h)
  | some a =>
    subst hb
    exact .named rfl h

/-- Where there is a change, both legs are told alike: each by what was taken of it. -/
theorem Compares.takenOf {c : Change} {taken : Legs} (h : n.Compares gets? pays? after)
    (hkind : n.kind ≠ .created) (hc : n.change = .ok (some c)) (ht : c.taken? = some taken) :
    after.gets.TakenOf taken.gets gets? ∧ after.pays.TakenOf taken.pays pays? := by
  rw [h.change_eq hkind] at hc
  obtain ⟨gets, rfl, rfl⟩ := Option.map_eq_some_iff.mp (Except.ok.inj hc)
  unfold Change.taken? at ht
  simp only [Option.bind_eq_bind, Option.bind_eq_some_iff, Option.pure_def, Option.some.injEq] at ht
  obtain ⟨getsTaken, hg, paysTaken, hp, rfl⟩ := ht
  exact ⟨takenOf_of_sub? rfl hg, takenOf_of_sub? rfl hp⟩

/-- Swapping the legs swaps the change just where both former legs are named, or neither is. -/
theorem Compares.change_swapLegs_iff (h : n.Compares gets? pays? after)
    (hkind : n.kind ≠ .created) :
    n.swapLegs.change = n.change.map (·.map Change.swap) ↔ gets?.isSome = pays?.isSome := by
  rw [h.change_eq hkind, h.swap.change_eq hkind]
  cases gets? <;> cases pays? <;> simp [Except.map, Change.swap, Legs.swap]

/-- Swapping a change swaps what was taken. -/
theorem Change.taken?_swap (c : Change) : c.swap.taken? = c.taken?.map Legs.swap := by
  obtain ⟨⟨gets, pays⟩, getsAfter, paysAfter⟩ := c
  simp only [taken?, Change.swap, Legs.swap]
  cases gets.value.sub? getsAfter <;> cases pays.value.sub? paysAfter <;> rfl

/-- What was taken is in range just if both differences are. -/
theorem Change.taken?_isSome_iff {c : Change} : c.taken?.isSome = true ↔
    Decimal.Fits (c.before.gets.value.toRat - c.getsAfter.toRat) ∧
      Decimal.Fits (c.before.pays.value.toRat - c.paysAfter.toRat) := by
  rw [← Decimal.sub?_isSome_iff, ← Decimal.sub?_isSome_iff]
  unfold taken?
  cases c.before.gets.value.sub? c.getsAfter <;> cases c.before.pays.value.sub? c.paysAfter <;>
    simp

end AffectedNode

/-! ## What is reported of an offer that goes -/

namespace OrderRegister

variable {r : OrderRegister} {x : String} {state : OrderState} {isFill : Bool} {time : Stamp}

theorem state_of_report {u : OrderUpdate} (hu : .order u ∈ (r.report x state isFill time).2) :
    u.state = state := by
  unfold report at hu
  split at hu
  · rename_i r' o hm
    obtain ⟨_, _, _, _, rfl, _⟩ := move?_eq_some_iff.mp hm
    cases List.mem_singleton.mp hu
    rfl
  · split at hu
    · split at hu
      · rename_i hsame
        cases List.mem_singleton.mp hu
        exact hsame.2
      · cases hu
    · cases hu

/-- A live order that ends is reported to have ended so. -/
theorem report_terminal {sequence : UInt32} {order : Order} (h : r.resolve? sequence = some order)
    (ht : state.isTerminal = true) (isFill : Bool) (time : Stamp) : ∃ r' u,
      r.report order.clientId state isFill time = (r', [.order u]) ∧
      u.clientId = order.clientId ∧ u.state = state := by
  have hlive : order.state.isTerminal = false := by
    simpa [Order.isLive] using live_of_resolve? h
  have hne : order.state ≠ state := by
    rintro rfl
    rw [ht] at hlive
    cases hlive
  have hm := move?_eq_some_iff.mpr ⟨order, find?_of_resolve? h, hne,
    OrderState.canMoveTo_terminal hlive ht, rfl, rfl⟩
  unfold report
  rw [hm]
  exact ⟨_, _, rfl, rfl, rfl⟩

end OrderRegister

theorem Fill.not_order_of_trades? {f : Fill} {ctx : Trader} {market : Market} {o : Order}
    {events : List OrderEvent} (h : f.trades? ctx market o = some events) (u : OrderUpdate) :
    .order u ∉ events := by
  unfold trades? at h
  split at h
  · cases h
    exact List.not_mem_nil
  split at h
  · cases h
    exact List.not_mem_nil
  · obtain ⟨fee, _, h⟩ := Option.bind_eq_some_iff.mp h
    cases h
    simp

/-- A fill is reported with the state that follows from it. -/
theorem Fill.state_of_count? {f : Fill} {ctx : Trader} {market : Market} {r r' : OrderRegister}
    {o : Order} {next : Order → OrderState} {events : List OrderEvent} {u : OrderUpdate}
    (h : f.count? ctx market r o next = some (r', events)) (hu : .order u ∈ events) :
    ∃ after, u.state = next after := by
  unfold count? at h
  split at h
  · cases h
    cases hu
  · simp only [Option.bind_eq_bind, Option.bind_eq_some_iff, Option.pure_def, Option.some.injEq,
      Prod.mk.injEq] at h
    obtain ⟨after, _, trades, htrades, _, rfl⟩ := h
    rcases List.mem_append.mp hu with hu | hu
    · exact absurd hu (Fill.not_order_of_trades? htrades u)
    · exact ⟨after, OrderRegister.state_of_report hu⟩

namespace Trader

variable {ctx : Trader} {o : Outcome} {time : Stamp} {n : AffectedNode} {r r' : OrderRegister}
  {sequence : UInt32} {order : Order} {events : List OrderEvent}

/-- The node takes away the offer of a live order. -/
structure Removes (ctx : Trader) (r : OrderRegister) (n : AffectedNode) (order : Order) : Prop where
  deleted : n.kind = .deleted
  own : n.account? = some ctx.account
  found : ∃ sequence, n.sequence? = some sequence ∧ r.resolve? sequence = some order

/-- Without a change the order is canceled. -/
theorem makerNode?_of_unchanged (h : ctx.Removes r n order) (hc : n.change = .ok none) :
    ∃ r' u, ctx.makerNode? o time r n = some (r', [.order u]) ∧
      u.clientId = order.clientId ∧ u.state = .canceled := by
  obtain ⟨sequence, hs, hr⟩ := h.found
  obtain ⟨r', u, hreport, hu⟩ := OrderRegister.report_terminal hr
    (show OrderState.canceled.isTerminal = true from rfl) false time
  refine ⟨r', u, ?_, hu⟩
  have hkept : ¬ (n.account? ≠ some ctx.account ∨ n.kind = .created) := by
    simp [h.own, h.deleted]
  rw [makerNode?, if_neg hkept]
  simp only [hs, hr, hc, h.deleted, if_true, hreport]

/-- With a change nothing is reported of the order but that it is filled. -/
theorem state_of_makerNode? (h : ctx.Removes r n order) {c : AffectedNode.Change}
    (hc : n.change = .ok (some c)) (hm : ctx.makerNode? o time r n = some (r', events))
    {u : OrderUpdate} (hu : .order u ∈ events) : u.state = .filled := by
  obtain ⟨sequence, hs, hr⟩ := h.found
  have hkept : ¬ (n.account? ≠ some ctx.account ∨ n.kind = .created) := by
    simp [h.own, h.deleted]
  simp only [makerNode?, if_neg hkept, hs, hr, hc, Option.bind_eq_bind,
    Option.bind_eq_some_iff] at hm
  obtain ⟨taken, _, hm⟩ := hm
  split at hm
  · cases hm
    cases hu
  split at hm
  · cases hm
    cases hu
  · obtain ⟨after, hstate⟩ := Fill.state_of_count? hm hu
    rw [hstate, if_pos (Or.inl h.deleted)]

end Trader

namespace AffectedNode

variable {n : AffectedNode} {gets? pays? : Option Amount} {after : Legs}

/-- Whether an offer counts as changed is told by the gets leg alone. Without a former gets leg
there is no change, whatever the pays leg was. With one, both legs are told alike: each by what was
taken of it. Swapping the legs swaps the change, and so what was taken, just where both former legs
are named, or neither is. A node that takes away the offer of a live order cancels it where the
former gets leg is not named, and otherwise reports nothing of it but that it is filled. -/
theorem change_is_told_by_the_gets_leg (h : n.Compares gets? pays? after)
    (hkind : n.kind ≠ .created) :
    (gets? = none → n.change = .ok none) ∧
    (∀ gets, gets? = some gets → ∃ c, n.change = .ok (some c) ∧
      (c.taken?.isSome = true ↔ Decimal.Fits (gets.value.toRat - after.gets.value.toRat) ∧
        Decimal.Fits ((pays?.getD after.pays).value.toRat - after.pays.value.toRat)) ∧
      c.swap.taken? = c.taken?.map Legs.swap ∧
      ∀ taken, c.taken? = some taken →
        after.gets.TakenOf taken.gets gets? ∧ after.pays.TakenOf taken.pays pays?) ∧
    (n.swapLegs.change = n.change.map (·.map Change.swap) ↔ gets?.isSome = pays?.isSome) ∧
    (∀ (ctx : Trader) (o : Outcome) (time : Stamp) (r : OrderRegister) (order : Order),
      ctx.Removes r n order →
      (gets? = none → ∃ r' u, ctx.makerNode? o time r n = some (r', [.order u]) ∧
        u.clientId = order.clientId ∧ u.state = .canceled) ∧
      (gets? ≠ none → ∀ r' events, ctx.makerNode? o time r n = some (r', events) →
        ∀ u, .order u ∈ events → u.state = .filled)) := by
  have hchange := h.change_eq hkind
  refine ⟨?_, ?_, h.change_swapLegs_iff hkind, fun ctx o time r order hremoves => ⟨?_, ?_⟩⟩
  · rintro rfl
    exact hchange
  · rintro gets rfl
    exact ⟨_, hchange, Change.taken?_isSome_iff, Change.taken?_swap _,
      fun taken => h.takenOf hkind hchange⟩
  · rintro rfl
    exact Trader.makerNode?_of_unchanged hremoves hchange
  · intro hnamed r' events hm u hu
    obtain ⟨gets, rfl⟩ := Option.ne_none_iff_exists'.mp hnamed
    exact Trader.state_of_makerNode? hremoves hchange hm hu

/-! Of the whole ask two fifths are taken, and both former legs are named. -/

theorem change_of_a_partial_take : ∃ c taken, askNode.change = .ok (some c) ∧
    c.taken? = some taken ∧ partAsk.legs.gets.TakenOf taken.gets (some wholeAsk.legs.gets) ∧
    partAsk.legs.pays.TakenOf taken.pays (some wholeAsk.legs.pays) := by
  have hcompares : askNode.Compares (some wholeAsk.legs.gets) (some wholeAsk.legs.pays)
      partAsk.legs :=
    ⟨⟨⟨_, rfl, partAsk.gets_read⟩, _, rfl, partAsk.pays_read⟩,
      .named wholeAsk.gets_read (by decide +kernel), .named wholeAsk.pays_read (by decide +kernel)⟩
  obtain ⟨_, hchange, _, _⟩ := change_is_told_by_the_gets_leg hcompares (by decide)
  obtain ⟨c, hc, _, _, htaken⟩ := hchange _ rfl
  have hsome : (askNode.change.toOption.join.bind Change.taken?).isSome = true := by
    decide +kernel
  rw [hc] at hsome
  obtain ⟨taken, ht⟩ := Option.isSome_iff_exists.mp hsome
  exact ⟨c, taken, hc, ht, htaken taken ht⟩

/-! So little is taken of a bid that its gets leg stays as it was. When it goes it counts as
cancelled, although some of it was bought. -/

def dustBid : AffectedNode where
  kind := .deleted
  entryType := .offer
  ledgerIndex := "C"
  before := { takerPays := some (soloWire "5") }
  after := {
    account := some "rHbot"
    sequence := some 7
    takerGets := some (.drops "1000000")
    takerPays := some (soloWire "4.9999999") }

def dustLegs : Legs :=
  ⟨⟨.native, .one⟩, ⟨.issued "SOLO" "rIssuer", ⟨49999999, 7, by decide, by decide⟩⟩⟩

def dustTrader : Trader := ⟨"rHbot", .ofList [("SOLO-XRP", soloXrp)], .empty⟩

def dustOrder : Order :=
  { Order.start "hbot" "SOLO-XRP" .buy .limit (.ofWord 5) none .moment with
    exchangeId := some "7-99"
    state := .opened }

def dustOutcome : Outcome where
  hash := "D"
  transaction := ⟨"rTaker", "OfferCreate", 3, none, none, 0, none, none, none⟩
  engineResult := "tesSUCCESS"
  nodes := [dustBid]
  ledgerIndex := none
  validated := true
  date := none

theorem taken_pays_leg_is_passed_over :
    dustBid.Compares none (some ⟨.issued "SOLO" "rIssuer", .ofWord 5⟩) dustLegs ∧
    dustBid.change = .ok none ∧ dustBid.swapLegs.change ≠ .ok none ∧
    (dustTrader.makerNode? dustOutcome .moment (OrderRegister.empty.track dustOrder) dustBid).map
      (·.2) = some [{ dustOrder with state := .canceled }.update .moment] := by
  refine ⟨⟨⟨⟨_, rfl, by decide +kernel⟩, _, rfl, by decide +kernel⟩, .unnamed,
    .named (by decide +kernel) (by decide +kernel)⟩, by decide +kernel, by decide +kernel,
    by decide +kernel⟩

end AffectedNode

end OfferDesk
