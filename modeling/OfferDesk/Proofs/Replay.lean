-- What a transaction does once it does never again: whatever has become of the register since,
-- the same transaction changes nothing more and reports nothing. Not every branch looks at the
-- counted transactions; what ends an order is not repeated because the order is dead.
import OfferDesk.Proofs.Effects

namespace OfferDesk

/-! ## What later registers find -/

namespace OrderRegister

variable {r r' r'' : OrderRegister} {o o' : Order} {sequence : UInt32}

/-- What a sequence leads to after some steps has become of an order that it led to before them,
and that was still live after them. -/
theorem resolve?_before (hr : r.OneLivePerSequence) (ha : r.Advances r') (hd : r'.Descends r'')
    (ho : r''.resolve? sequence = some o') : ∃ o o₁, r.resolve? sequence = some o ∧
      r'.find? o.clientId = some o₁ ∧ o₁.isLive = true ∧ o.Advances o₁ ∧ o₁.Advances o' := by
  obtain ⟨o₁, hs₁, ha₁⟩ := hd.resolve? (ha.descends.oneLivePerSequence hr) ho
  obtain ⟨o, hs, ha₀⟩ := ha.descends.resolve? hr hs₁
  refine ⟨o, o₁, hs, ?_, live_of_resolve? hs₁, ha₀, ha₁⟩
  rw [← ha₀.clientId_eq]
  exact find?_of_resolve? hs₁

/-- An order that a report has ended is not live. -/
theorem not_live_of_report {state : OrderState} {isFill : Bool} {time : Stamp}
    {events : List OrderEvent} (ho : r.resolve? sequence = some o) (ht : state.isTerminal = true)
    (h : r.report o.clientId state isFill time = (r', events))
    (hf : r'.find? o.clientId = some o') : o'.isLive = false := by
  rw [eq_move_of_report h, find?_move_terminal (find?_of_resolve? ho) (live_of_resolve? ho) ht] at hf
  cases hf
  simp [Order.isLive, ht]

end OrderRegister

/-! ## Steps that are taken once -/

/-- Once the step is taken, and has only let the orders go on, it has nothing more to do and
nothing to report, whatever becomes of the register. -/
def Settles (step : OrderRegister → Option Reported) : Prop :=
  ∀ r r' events x, r.OneLivePerSequence → step r = some (r', events) → r.Advances r' →
    r'.Descends x → step x = some (x, [])

theorem settles_skip : Settles fun r => some (r, []) := by
  intro r r' events x _ _ _ _
  rfl

/-- Two steps, one after the other. -/
def andThen (first second : OrderRegister → Option Reported) (r : OrderRegister) :
    Option Reported := do
  let (r, a) ← first r
  let (r, b) ← second r
  return (r, a ++ b)

theorem Settles.andThen {first second : OrderRegister → Option Reported} (h : Settles first)
    (ha : ∀ {r r' events}, first r = some (r', events) → r.Advances r') (h' : Settles second)
    (ha' : ∀ {r r' events}, second r = some (r', events) → r.Advances r') :
    Settles (andThen first second) := by
  intro r r'' events x hr he _ hd
  simp only [OfferDesk.andThen, Option.bind_eq_bind, Option.bind_eq_some_iff, Option.pure_def,
    Option.some.injEq, Prod.mk.injEq, Prod.exists] at he
  obtain ⟨r', a, hfirst, r₂, b, hsecond, rfl, rfl⟩ := he
  have hone := (ha hfirst).descends.oneLivePerSequence hr
  have hfirst' := h r r' a x hr hfirst (ha hfirst) ((ha' hsecond).descends.trans hd)
  have hsecond' := h' r' r₂ b x hone hsecond (ha' hsecond) hd
  simp [OfferDesk.andThen, hfirst', hsecond']

/-! ## The parts of a transaction -/

theorem Fill.count?_of_hasApplied {f : Fill} {ctx : Trader} {market : Market} {r : OrderRegister}
    {o : Order} {next : Order → OrderState} (h : o.hasApplied f.hash = true) :
    f.count? ctx market r o next = some (r, []) := by
  unfold count?
  rw [if_pos h]

/-- A fill that was counted is not counted again for what has become of the order. -/
theorem Fill.count?_again {f : Fill} {ctx : Trader} {market : Market} {r r' x : OrderRegister}
    {o o₁ o' : Order} {next next' : Order → OrderState} {events : List OrderEvent}
    (ho : r.resolve? f.sequence = some o) (h : f.count? ctx market r o next = some (r', events))
    (hf : r'.find? o.clientId = some o₁) (ha : o₁.Advances o') :
    f.count? ctx market x o' next' = some (x, []) := by
  obtain ⟨_, o₂, hf₂, hc⟩ := counted (OrderRegister.find?_of_resolve? ho)
    (OrderRegister.live_of_resolve? ho) h
  rw [hf] at hf₂
  cases hf₂
  exact count?_of_hasApplied (ha.counted _ hc)

namespace Trader

variable (ctx : Trader) (o : Outcome) (time : Stamp)

/-- The own offer. A refused one has ended its order, any other is counted. -/
theorem settles_ownCreate : Settles (ctx.ownCreate? o time) := by
  intro r r' events x hr h ha hd
  cases hs' : x.resolve? o.transaction.sequence with
  | none => simp [ownCreate?, hs']
  | some order' =>
    obtain ⟨order, order₁, hs, hf, hl, ha₁, ha₂⟩ := OrderRegister.resolve?_before hr ha hd hs'
    have hpair := (ha₁.trans ha₂).pair_eq
    unfold ownCreate? at h ⊢
    simp only [hs, hs', hpair] at h ⊢
    split at h
    · rw [OrderRegister.not_live_of_report hs rfl (Option.some.inj h) hf] at hl
      cases hl
    rename_i hok
    rw [if_neg hok]
    split at h
    · rename_i hnone
      rw [if_pos hnone]
    rename_i hnodes
    rw [if_neg hnodes]
    split at h
    · rfl
    · simp only [Option.bind_eq_bind, Option.bind_eq_some_iff, Prod.exists] at h
      obtain ⟨base, quote, htaken, h⟩ := h
      simp only [htaken, Option.bind_eq_bind, Option.bind_some]
      exact Fill.count?_again hs h hf ha₂

/-- The own cancel. One that succeeded has ended its order. -/
theorem settles_ownCancel : Settles fun r => some (ownCancel o time r) := by
  intro r r' events x hr h ha hd
  cases hseq : o.transaction.offerSequence with
  | none => simp [ownCancel, hseq]
  | some sequence =>
    cases hs' : x.resolve? sequence with
    | none => simp [ownCancel, hseq, hs']
    | some order' =>
      obtain ⟨order, order₁, hs, hf, hl, _, _⟩ := OrderRegister.resolve?_before hr ha hd hs'
      simp only [ownCancel, hseq, Option.bind_some, hs, hs', Option.some.injEq] at h ⊢
      split at h
      · rw [OrderRegister.not_live_of_report hs rfl h hf] at hl
        cases hl
      · rename_i hok
        rw [if_neg hok]

theorem settles_ownTransaction : Settles (ctx.ownTransaction? o time) := by
  unfold ownTransaction?
  split
  · split
    · exact settles_ownCreate ctx o time
    · split
      · exact settles_ownCancel o time
      · exact settles_skip
  · exact settles_skip

/-- A change of a resting offer. An offer that went untouched has ended its order, any other
change is counted. -/
theorem settles_makerNode (n : AffectedNode) : Settles fun r => ctx.makerNode? o time r n := by
  unfold makerNode?
  split
  · exact settles_skip
  split
  · exact settles_skip
  rename_i sequence _
  intro r r' events x hr h ha hd
  dsimp only at h ⊢
  cases hs' : x.resolve? sequence with
  | none => simp
  | some order' =>
    obtain ⟨order, order₁, hs, hf, hl, ha₁, ha₂⟩ := OrderRegister.resolve?_before hr ha hd hs'
    have hpair := (ha₁.trans ha₂).pair_eq
    simp only [hs, hpair] at h ⊢
    split at h
    · rfl
    · split at h
      · rw [OrderRegister.not_live_of_report hs rfl (Option.some.inj h) hf] at hl
        cases hl
      · rename_i hkept
        rw [if_neg hkept]
    · simp only [Option.bind_eq_bind, Option.bind_eq_some_iff] at h ⊢
      obtain ⟨taken, htaken, h⟩ := h
      refine ⟨taken, htaken, ?_⟩
      -- what the sequence leads to later is of the same pair, and so of the same market
      split at h
      · rfl
      split at h
      · rfl
      · exact Fill.count?_again hs h hf ha₂

theorem settles_makerNodes {nodes : List AffectedNode} (success : o.isSuccess = true)
    (mem : ∀ n ∈ nodes, n ∈ o.offerNodes) :
    Settles fun r => ctx.makerNodes? o time r nodes := by
  induction nodes with
  | nil => exact settles_skip
  | cons n ns ih =>
    have mem' : ∀ m ∈ ns, m ∈ o.offerNodes := fun m hm => mem m (List.mem_cons_of_mem _ hm)
    exact (settles_makerNode ctx o time n).andThen
      (fun h => (effect_makerNode success (mem n List.mem_cons_self) h).advances)
      (ih mem') (fun h => (effect_makerNodes success mem' h).advances)

theorem settles_makerFills : Settles (ctx.makerFills? o time) := by
  unfold makerFills?
  split
  · rename_i success
    exact settles_makerNodes ctx o time success fun _ => id
  · exact settles_skip

theorem settles_process : Settles (ctx.process? o) := by
  unfold process?
  split
  · exact settles_skip
  rename_i hv
  cases htime : Stamp.ofClose? o.date with
  | none =>
    intro r r' events x _ h
    cases h
  | some time =>
    exact (settles_ownTransaction ctx o time).andThen
      (fun h => (effect_ownTransaction (by simpa using hv) h).advances)
      (settles_makerFills ctx o time) (fun h => (effect_makerFills h).advances)

end Trader

/-! ## Runs -/

/-- What can happen to a register while no exchange id is assigned: a transaction is taken in, an
order moves if it may, one that has no exchange id yet comes in, or one goes. -/
inductive RegisterStep where
  | takeIn (o : Outcome)
  | move (clientId : String) (state : OrderState)
  | track (o : Order) (unassigned : o.exchangeId = none)
  | untrack (clientId : String)

namespace RegisterStep

def next? (ctx : Trader) (r : OrderRegister) : RegisterStep → Option OrderRegister
  | takeIn o => (ctx.process? o r).map (·.1)
  | move clientId state => some (r.move clientId state)
  | track o _ => some (r.track o)
  | untrack clientId => some (r.untrack clientId)

/-- The register after one step after another. There is none where a transaction gives none. -/
def run? (ctx : Trader) (r : OrderRegister) (steps : List RegisterStep) : Option OrderRegister :=
  steps.foldlM (next? ctx) r

variable {ctx : Trader} {r r' : OrderRegister}

theorem descends_next? {step : RegisterStep} (h : step.next? ctx r = some r') :
    r.Descends r' := by
  cases step with
  | takeIn o =>
    obtain ⟨⟨r₁, events⟩, hp, rfl⟩ := Option.map_eq_some_iff.mp h
    exact (Trader.effect_process hp).advances.descends
  | move clientId state =>
    cases h
    exact (OrderRegister.advances_move r clientId state).descends
  | track o unassigned =>
    cases h
    exact OrderRegister.descends_track r unassigned
  | untrack clientId =>
    cases h
    exact OrderRegister.descends_untrack r clientId

theorem descends_run? {steps : List RegisterStep} (h : run? ctx r steps = some r') :
    r.Descends r' := by
  induction steps generalizing r with
  | nil =>
    cases h
    exact .refl _
  | cons step steps ih =>
    rw [run?, List.foldlM_cons, Option.bind_eq_bind, Option.bind_eq_some_iff] at h
    obtain ⟨r₁, hstep, hrest⟩ := h
    exact (descends_next? hstep).trans (ih hrest)

/-- A transaction that was taken in at some point of a run changes nothing and reports nothing
when it comes in again, however the run went on. -/
theorem replay_changes_nothing {o : Outcome} {before between : List RegisterStep}
    (hr : r.OneLivePerSequence) (h : run? ctx r (before ++ .takeIn o :: between) = some r') :
    ctx.process? o r' = some (r', []) := by
  rw [run?, List.foldlM_append, Option.bind_eq_bind, Option.bind_eq_some_iff] at h
  obtain ⟨r₁, hbefore, h⟩ := h
  rw [List.foldlM_cons, Option.bind_eq_bind, Option.bind_eq_some_iff] at h
  obtain ⟨r₂, htake, hbetween⟩ := h
  obtain ⟨⟨_, events⟩, hp, rfl⟩ := Option.map_eq_some_iff.mp htake
  have hone : r₁.OneLivePerSequence := (descends_run? hbefore).oneLivePerSequence hr
  exact ctx.settles_process o _ _ _ r' hone hp (Trader.effect_process hp).advances
    (descends_run? hbetween)

/-! A resting offer is taken from in part, and a cancel of it goes out before the same transaction
comes in again. -/

def soloTrader : Trader :=
  ⟨"rMe", .ofList [("SOLO-XRP", ⟨"SOLO-XRP", .issued "SOLO" "rIssuer", .native⟩)], .empty⟩

def restingOrder : Order :=
  { Order.start "1-1" "SOLO-XRP" .sell .limit (.ofWord 100) none .moment with
    exchangeId := some "7-20"
    state := .opened }

def partialFill : Outcome where
  hash := "AB"
  transaction := ⟨"rTaker", "OfferCreate", 3, none, none, 0, none, none, none⟩
  engineResult := "tesSUCCESS"
  nodes := [{
    kind := .modified
    entryType := .offer
    ledgerIndex := "I"
    before := {
      takerGets := some (.issued ⟨"SOLO", "rIssuer", "100"⟩)
      takerPays := some (.drops "50000000") }
    after := {
      account := some "rMe"
      sequence := some 7
      takerGets := some (.issued ⟨"SOLO", "rIssuer", "60"⟩)
      takerPays := some (.drops "30000000") } }]
  ledgerIndex := some 9
  validated := true
  date := none

theorem replay_of_a_partial_fill : ∃ r',
    run? soloTrader (OrderRegister.empty.track restingOrder)
      ([] ++ .takeIn partialFill :: [.move "1-1" .pendingCancel]) = some r' ∧
    soloTrader.process? partialFill r' = some (r', []) := by
  obtain ⟨r', h⟩ := Option.isSome_iff_exists.mp (show (run? soloTrader
    (OrderRegister.empty.track restingOrder)
    ([] ++ .takeIn partialFill :: [.move "1-1" .pendingCancel])).isSome = true by decide +kernel)
  exact ⟨r', h, replay_changes_nothing (OrderRegister.oneLivePerSequence_of_one restingOrder) h⟩

end RegisterStep

end OfferDesk
