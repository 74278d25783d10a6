-- A transaction works on the register by replacing whole orders. Each of its parts puts one order
-- in place of the live one that it found, with at most one more fill, or does nothing.
import OfferDesk.Proofs.Effects
import OfferDesk.Proofs.Findings

namespace OfferDesk

/-! ## Moved orders -/

namespace Order

/-- The order in a state, if it may move there. -/
def movedTo (o : Order) (state : OrderState) : Order :=
  if o.state.canMoveTo state then { o with state := state } else o

variable {o : Order} {state : OrderState}

theorem clientId_movedTo (o : Order) (state : OrderState) :
    (o.movedTo state).clientId = o.clientId := by
  unfold movedTo
  split <;> rfl

/-- A live order moves to any state that the ledger can bring it to. -/
theorem movedTo_of_live (hl : o.isLive = true)
    (hs : state.isTerminal = true ∨ state.isConfirmed = true ∧ state ≠ .pendingCancel) :
    o.movedTo state = { o with state := state } := by
  have hlive : o.state.isTerminal = false := by simpa [isLive] using hl
  unfold movedTo
  rcases hs with ht | ⟨hc, hp⟩
  · rw [if_pos (OrderState.canMoveTo_terminal hlive ht)]
  · rw [if_pos (OrderState.canMoveTo_confirmed hlive hc hp)]

end Order

/-! ## Fills that are kept -/

namespace Order

/-- The order with further fills counted. -/
def countAll? (o : Order) (fills : List Fill) : Option Order :=
  fills.foldlM (fun o f => o.withFill? f.hash f.base f.quote) o

/-- The second order is the first with further fills counted, in whatever state. -/
def KeepsFills (o o' : Order) : Prop :=
  ∃ fills, o.countAll? fills = some { o' with state := o.state }

theorem withFill?_state (o : Order) (state : OrderState) (hash : String) (base quote : Decimal) :
    { o with state := state }.withFill? hash base quote =
      (o.withFill? hash base quote).map fun o => { o with state := state } := by
  unfold withFill?
  cases o.executedBase.add? base with
  | none => rfl
  | some b => cases o.executedQuote.add? quote <;> rfl

theorem countAll?_state (o : Order) (state : OrderState) (fills : List Fill) :
    { o with state := state }.countAll? fills =
      (o.countAll? fills).map fun o => { o with state := state } := by
  induction fills generalizing o with
  | nil => rfl
  | cons f fills ih =>
    rw [countAll?, countAll?, List.foldlM_cons, List.foldlM_cons, withFill?_state]
    cases o.withFill? f.hash f.base f.quote with
    | none => rfl
    | some o => exact ih o

theorem asPlaced_countAll? {o o' : Order} {fills : List Fill} (h : o.countAll? fills = some o') :
    o'.asPlaced = o.asPlaced := by
  induction fills generalizing o with
  | nil =>
    cases h
    rfl
  | cons f fills ih =>
    rw [countAll?, List.foldlM_cons, Option.bind_eq_bind, Option.bind_eq_some_iff] at h
    obtain ⟨o₁, hfill, hrest⟩ := h
    obtain ⟨_, _, _, _, rfl⟩ := withFill?_eq_some_iff.mp hfill
    exact (ih hrest).trans rfl

namespace KeepsFills

variable {o o' o'' : Order}

theorem refl (o : Order) : o.KeepsFills o := ⟨[], rfl⟩

theorem trans (h : o.KeepsFills o') (h' : o'.KeepsFills o'') : o.KeepsFills o'' := by
  obtain ⟨fills, hfills⟩ := h
  obtain ⟨fills', hfills'⟩ := h'
  refine ⟨fills ++ fills', ?_⟩
  have hlater := countAll?_state o' o.state fills'
  rw [hfills', Option.map_some] at hlater
  rw [countAll?, List.foldlM_append, Option.bind_eq_bind,
    show fills.foldlM (fun o f => o.withFill? f.hash f.base f.quote) o = _ from hfills]
  exact hlater

theorem state (o : Order) (state : OrderState) : o.KeepsFills { o with state := state } := ⟨[], rfl⟩

theorem withFill? {f : Fill} (h : o.withFill? f.hash f.base f.quote = some o') :
    o.KeepsFills o' := by
  refine ⟨[f], ?_⟩
  have hstate : o'.state = o.state := by
    obtain ⟨_, _, _, _, rfl⟩ := Order.withFill?_eq_some_iff.mp h
    rfl
  rw [countAll?, List.foldlM_cons, h, ← hstate]
  rfl

theorem placed (h : o.KeepsFills o') : o'.asPlaced = o.asPlaced := by
  obtain ⟨fills, hfills⟩ := h
  exact (asPlaced_countAll? hfills).trans rfl

theorem exchangeId_eq (h : o.KeepsFills o') : o'.exchangeId = o.exchangeId :=
  show o'.asPlaced.exchangeId = o.asPlaced.exchangeId by rw [h.placed]

theorem sequence?_eq (h : o.KeepsFills o') : o'.sequence? = o.sequence? := by
  unfold sequence?
  rw [h.exchangeId_eq]

/-- The state does not matter for what is kept. -/
theorem state_iff (state : OrderState) :
    o.KeepsFills { o' with state := state } ↔ o.KeepsFills o' :=
  ⟨fun h => h.trans (.state { o' with state := state } o'.state), fun h => h.trans (.state o' state)⟩

end KeepsFills

/-- What a transaction can make of an order. It reaches a live one that has a sequence, keeps what
is counted, and leaves no order waiting for a cancel. -/
structure Reaches (o o' : Order) : Prop where
  live : o.isLive = true
  numbered : o.sequence?.isSome = true
  settled : o'.state ≠ .pendingCancel
  keeps : o.KeepsFills o'

theorem Reaches.trans {o o' o'' : Order} (h : o.Reaches o') (h' : o'.Reaches o'') :
    o.Reaches o'' :=
  ⟨h.live, h.numbered, h'.settled, h.keeps.trans h'.keeps⟩

/-- What stays or is reached twice over, stays or is reached. -/
theorem eq_or_reaches_trans {o o' o'' : Order} (h : o' = o ∨ o.Reaches o')
    (h' : o'' = o' ∨ o'.Reaches o'') : o'' = o ∨ o.Reaches o'' := by
  rcases h' with rfl | h'
  · exact h
  · rcases h with rfl | h
    · exact Or.inr h'
    · exact Or.inr (h.trans h')

end Order

/-! ## One entry changed -/

namespace OrderRegister

variable {r r₁ r₂ : OrderRegister} {o : Order} {clientId : String} {w : Option Order}

/-- The second register is the first with `w` under a client id. -/
def Sets (clientId : String) (w : Option Order) (r r' : OrderRegister) : Prop :=
  ∀ x, r'.find? x = if x = clientId then w else r.find? x

theorem sets_self (r : OrderRegister) (clientId : String) : Sets clientId (r.find? clientId) r r := by
  intro x
  split
  · rename_i hx
    rw [hx]
  · rfl

theorem sets_track (r : OrderRegister) (o : Order) : Sets o.clientId (some o) r (r.track o) :=
  r.find?_track o

theorem sets_untrack (r : OrderRegister) (clientId : String) :
    Sets clientId none r (r.untrack clientId) :=
  r.find?_untrack clientId

/-- A move puts the moved order in place of the one there was. -/
theorem sets_move (r : OrderRegister) (clientId : String) (state : OrderState) :
    Sets clientId ((r.find? clientId).map (·.movedTo state)) r (r.move clientId state) := by
  unfold move
  split
  · rename_i r' o' hm
    obtain ⟨o, ho, _, hcan, rfl, rfl⟩ := move?_eq_some_iff.mp hm
    rw [ho, Option.map_some, Order.movedTo, if_pos hcan, ← clientId_of_find? ho]
    exact sets_track r _
  · rename_i hm
    have hstays : (r.find? clientId).map (·.movedTo state) = r.find? clientId := by
      cases ho : r.find? clientId with
      | none => rfl
      | some o =>
        rw [Option.map_some, Option.some.injEq, Order.movedTo]
        split
        · rename_i hcan
          by_cases hs : o.state = state
          · rw [← hs]
          · rw [move?_eq_some_iff.mpr ⟨o, ho, hs, hcan, rfl, rfl⟩] at hm
            cases hm
        · rfl
    rw [hstays]
    exact sets_self r clientId

theorem sets_report (r : OrderRegister) (clientId : String) (state : OrderState) (isFill : Bool)
    (time : Stamp) : Sets clientId ((r.find? clientId).map (·.movedTo state)) r
      (r.report clientId state isFill time).1 := by
  have hmove : (r.report clientId state isFill time).1 = r.move clientId state :=
    eq_move_of_report rfl
  rw [hmove]
  exact sets_move r clientId state

theorem Sets.trans {w' : Option Order} (h : Sets clientId w r r₁) (h' : Sets clientId w' r₁ r₂) :
    Sets clientId w' r r₂ := by
  intro x
  rw [h' x, h x]
  split <;> rfl

/-- The second register is the first with an order in place of the one under its client id, if
there is an order to put. -/
def Replaces (w : Option Order) (r r' : OrderRegister) : Prop :=
  match w with
  | some o => Sets o.clientId (some o) r r'
  | none => ∀ x, r'.find? x = r.find? x

end OrderRegister

/-! ## What a finding puts in place -/

namespace Finding

variable {ctx : Trader} {time : Stamp} {o : Outcome} {found : Finding} {r : OrderRegister}

/-- The order that is put in place of the one found, if any is; nothing where an amount leaves the
range of decimals. -/
def replaces? (ctx : Trader) : Finding → Option (Option Order)
  | nothing => some none
  | ends order state => some (some { order with state := state })
  | fills order market fill next =>
    if order.hasApplied fill.hash then some none
    else do
      let o ← order.withFill? fill.hash fill.base fill.quote
      let _ ← fill.trades? ctx market o
      return some { o with state := next o }

/-- Writing a finding into a register replaces one order, or nothing. -/
theorem rel_enter (ctx : Trader) (time : Stamp) (h : Trader.Found o r found) :
    Option.Rel (fun (a : Reported) w => OrderRegister.Replaces w r a.1)
      (found.enter? ctx time r) (found.replaces? ctx) := by
  cases h with
  | nothing => exact .some fun x => rfl
  | @ends _ order state hs terminal =>
    have hmoved := r.sets_report order.clientId state false time
    rw [OrderRegister.find?_of_resolve? hs, Option.map_some,
      Order.movedTo_of_live (OrderRegister.live_of_resolve? hs) (Or.inl terminal)] at hmoved
    exact .some hmoved
  | @fills _ order market fill next hs _ confirmed _ =>
    simp only [enter?, Fill.count?, replaces?]
    split
    · exact .some fun x => rfl
    cases ho : order.withFill? fill.hash fill.base fill.quote with
    | none => exact .none
    | some o' =>
      simp only [Option.bind_eq_bind, Option.bind_some]
      cases fill.trades? ctx market o' with
      | none => exact .none
      | some trades =>
        have horder : order.isLive = true := OrderRegister.live_of_resolve? hs
        have hlive : o'.isLive = true := by
          obtain ⟨_, _, _, _, rfl⟩ := Order.withFill?_eq_some_iff.mp ho
          exact horder
        have hmoved := (r.track o').sets_report o'.clientId (next o') fill.base.isPositive fill.time
        rw [OrderRegister.find?_track_self, Option.map_some,
          Order.movedTo_of_live hlive (Or.inr (confirmed o'))] at hmoved
        exact .some ((OrderRegister.sets_track r o').trans hmoved)

theorem replaces_of_enter {r' : OrderRegister} {events : List OrderEvent}
    (h : Trader.Found o r found) (henter : found.enter? ctx time r = some (r', events)) :
    ∃ w, found.replaces? ctx = some w ∧ OrderRegister.Replaces w r r' := by
  have hrel := rel_enter ctx time h
  rw [henter] at hrel
  cases hw : found.replaces? ctx with
  | none =>
    rw [hw] at hrel
    cases hrel
  | some w =>
    rw [hw] at hrel
    cases hrel with
    | some hrel => exact ⟨w, rfl, hrel⟩

/-- What is put in place is the live order that a sequence led to, with at most one more fill. It
never waits for a cancel. -/
theorem of_replaces? {a : Order} (h : Trader.Found o r found)
    (ha : found.replaces? ctx = some (some a)) : ∃ sequence order,
      r.resolve? sequence = some order ∧ a.clientId = order.clientId ∧ order.KeepsFills a ∧
        a.state ≠ .pendingCancel := by
  cases h with
  | nothing => cases ha
  | @ends sequence order state hs terminal =>
    cases ha
    refine ⟨sequence, order, hs, rfl, .state order state, ?_⟩
    rintro rfl
    cases terminal
  | @fills sequence order market fill next hs _ confirmed _ =>
    simp only [replaces?] at ha
    split at ha
    · cases ha
    · simp only [Option.bind_eq_bind, Option.bind_eq_some_iff, Option.pure_def,
        Option.some.injEq] at ha
      obtain ⟨o', ho, _, _, rfl⟩ := ha
      have hid : o'.clientId = order.clientId := Order.clientId_withFill? ho
      exact ⟨sequence, order, hs, hid,
        (Order.KeepsFills.withFill? ho).trans (.state o' (next o')), (confirmed o').2⟩

end Finding

/-! ## A transaction, part by part -/

namespace Part

/-- The register after a part. -/
def next? (ctx : Trader) (time : Stamp) (r : OrderRegister) (part : Part) :
    Option OrderRegister := do
  let found ← part r
  let (r, _) ← found.enter? ctx time r
  return r

variable {ctx : Trader} {o : Outcome} {time : Stamp} {r r' : OrderRegister} {part : Part}

theorem trace?_register (parts : List Part) :
    (trace? ctx time r parts).map (·.1.1) = parts.foldlM (next? ctx time) r := by
  induction parts generalizing r with
  | nil => rfl
  | cons part parts ih =>
    rw [trace?, List.foldlM_cons, next?]
    cases part r with
    | none => rfl
    | some found =>
      simp only [Option.bind_eq_bind, Option.bind_some]
      cases found.enter? ctx time r with
      | none => rfl
      | some first =>
        simp only [Option.bind_some, Option.pure_def, ← ih]
        cases trace? ctx time first.1 parts <;> rfl

/-- A part replaces the order that it found, or nothing. -/
theorem replaces_next (hfound : ∀ found, part r = some found → Trader.Found o r found)
    (h : next? ctx time r part = some r') : ∃ found w, Trader.Found o r found ∧
      found.replaces? ctx = some w ∧ OrderRegister.Replaces w r r' := by
  simp only [next?, Option.bind_eq_bind, Option.bind_eq_some_iff, Option.pure_def,
    Option.some.injEq, Prod.exists] at h
  obtain ⟨found, hpart, _, events, henter, rfl⟩ := h
  obtain ⟨w, hw, hreplaces⟩ := Finding.replaces_of_enter (hfound found hpart) henter
  exact ⟨found, w, hfound found hpart, hw, hreplaces⟩

end Part

namespace Trader

variable {ctx : Trader} {o : Outcome} {r r' : OrderRegister} {events : List OrderEvent}

theorem process?_register (ctx : Trader) (o : Outcome) (r : OrderRegister) :
    (ctx.process? o r).map (·.1) = if !o.validated then some r
      else (Stamp.ofClose? o.date).bind fun time =>
        (ctx.parts o time).foldlM (Part.next? ctx time) r := by
  rw [process?_eq_trace, trace?]
  split
  · rfl
  cases Stamp.ofClose? o.date with
  | none => rfl
  | some time =>
    rw [Option.bind_some, ← Part.trace?_register, Option.map_map]
    rfl

end Trader

/-! ## What a transaction keeps -/

namespace Trader

variable {ctx : Trader} {o : Outcome} {r r' : OrderRegister} {events : List OrderEvent}
  {clientId : String} {a a' : Order}

/-- What is kept whenever one order is put in place of the one found is kept by a transaction. -/
theorem process?_induction {P : OrderRegister → Prop} (h : ctx.process? o r = some (r', events))
    (start : P r) (step : ∀ r r' found w, Found o r found → found.replaces? ctx = some w →
      OrderRegister.Replaces w r r' → P r → P r') : P r' := by
  have hr := process?_register ctx o r
  rw [h, Option.map_some] at hr
  split at hr
  · cases hr
    exact start
  obtain ⟨time, _, hparts⟩ := Option.bind_eq_some_iff.mp hr.symm
  have hfound : ∀ part ∈ ctx.parts o time, ∀ r found, part r = some found → Found o r found :=
    found_parts
  generalize ctx.parts o time = parts at hparts hfound
  clear h hr
  induction parts generalizing r with
  | nil =>
    cases hparts
    exact start
  | cons part parts ih =>
    rw [List.foldlM_cons, Option.bind_eq_bind, Option.bind_eq_some_iff] at hparts
    obtain ⟨r₁, hpart, hparts⟩ := hparts
    obtain ⟨found, w, hf, hw, hr⟩ := Part.replaces_next (hfound part List.mem_cons_self r) hpart
    exact ih (step r r₁ found w hf hw hr start) hparts fun p hp =>
      hfound p (List.mem_cons_of_mem _ hp)

/-- The order under an id after a transaction is the one that was there before, or what the
transaction has made of it. -/
theorem find?_of_process (h : ctx.process? o r = some (r', events))
    (hf : r.find? clientId = some a) :
    ∃ a', r'.find? clientId = some a' ∧ (a' = a ∨ a.Reaches a') := by
  refine process?_induction (P := fun r' => ∃ a', r'.find? clientId = some a' ∧
    (a' = a ∨ a.Reaches a')) h ⟨a, hf, Or.inl rfl⟩ ?_
  rintro r₁ r₂ found w hfound hw hr ⟨a', hf', ha'⟩
  cases w with
  | none => exact ⟨a', (hr clientId).trans hf', ha'⟩
  | some b =>
    obtain ⟨sequence, order, hs, hid, hkeeps, hstate⟩ := Finding.of_replaces? hfound hw
    by_cases hc : clientId = b.clientId
    · have horder : order = a' := by
        have hfo := OrderRegister.find?_of_resolve? hs
        rw [← hid, ← hc, hf'] at hfo
        exact (Option.some.inj hfo).symm
      subst horder
      obtain ⟨_, hlive, hsequence⟩ := OrderRegister.mem_carrying.mp
        (OrderRegister.mem_carrying_of_resolve? hs)
      exact ⟨b, by rw [hr clientId, if_pos hc], Order.eq_or_reaches_trans ha'
        (Or.inr ⟨hlive, by rw [hsequence]; rfl, hstate, hkeeps⟩)⟩
    · exact ⟨a', by rw [hr clientId, if_neg hc, hf'], ha'⟩

end Trader

end OfferDesk
