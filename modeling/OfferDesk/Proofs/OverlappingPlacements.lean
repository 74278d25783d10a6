-- Placements that are under way at once, and read the same sequence from the ledger. A placement
-- takes its sequence in the turn in which it submits, so the first one to get there has it, and the
-- others submit nothing.
import OfferDesk.Proofs.Cancelling
import OfferDesk.Proofs.PlacingTurns

namespace OfferDesk

/-! ## Placements under way at once -/

/-- A desk with placements, each under its client id, and the blobs that they have submitted. -/
structure PlacingRace where
  state : DeskState
  calls : Table String (Progress Placing Placing.Result)
  submitted : List (String × String) := []

/-- What happens in a race: a placement starts or gets a reply, or something else reaches the
desk. -/
inductive PlacingRaceEvent where
  | place (o : PlaceOrder)
  | reply (clientId : String) (r : Reply)
  | desk (e : DeskEvent)

/-- The placement whose turn it is. -/
def PlacingRaceEvent.caller? : PlacingRaceEvent → Option String
  | place o => some o.clientId
  | reply clientId _ => some clientId
  | desk _ => none

namespace PlacingRace

/-- A race after a turn of one placement. -/
def turn (g : PlacingRace) (clientId : String) (t : Turn Placing Placing.Result) : PlacingRace :=
  ⟨t.1, g.calls.put clientId t.2, g.submitted ++ t.2.submits.map (clientId, ·)⟩

def isWaiting (g : PlacingRace) (clientId : String) : Bool :=
  match g.calls.find? clientId with
  | some (.ask ..) => true
  | _ => false

/-- The race after an event. A reply that nobody waits for does nothing. There is no result where a
placement starts under an id that is taken, where anything else is about the order of a placement
that waits, and where an amount leaves the range of decimals. -/
def step? (d : Desk) (g : PlacingRace) : PlacingRaceEvent → Option PlacingRace
  | .place o =>
    match g.calls.find? o.clientId, g.state.order? o.clientId with
    | none, none => some (g.turn o.clientId (Placing.start d g.state o))
    | _, _ => none
  | .reply clientId r =>
    match g.calls.find? clientId with
    | some (.ask _ _ w) => some (g.turn clientId (w.resume d g.state r))
    | _ => some g
  | .desk e =>
    if e.clientId?.any g.isWaiting then none
    else (g.state.after? d e).map fun s => { g with state := s }

/-- The race after one event after another. -/
def run? (d : Desk) (g : PlacingRace) (events : List PlacingRaceEvent) : Option PlacingRace :=
  events.foldlM (step? d) g

/-! ## One step -/

variable {d : Desk} {g g' : PlacingRace} {s : DeskState} {o : PlaceOrder}
  {t : Turn Placing Placing.Result} {clientId blob : String} {event : PlacingRaceEvent}
  {events : List PlacingRaceEvent} {p : Progress Placing Placing.Result}

/-- What an event does to a race: nothing, a turn of one placement, or a change of the desk. -/
inductive Goes (d : Desk) (g : PlacingRace) : PlacingRaceEvent → PlacingRace → Prop where
  | idles {clientId : String} {r : Reply} : Goes d g (.reply clientId r) g
  | starts {o : PlaceOrder} (free : g.calls.find? o.clientId = none)
    (untracked : g.state.order? o.clientId = none) :
    Goes d g (.place o) (g.turn o.clientId (Placing.start d g.state o))
  | replies {clientId : String} {r : Reply} {pause : Nat} {request : Request} {w : Placing}
    (waits : g.calls.find? clientId = some (.ask pause request w)) :
    Goes d g (.reply clientId r) (g.turn clientId (w.resume d g.state r))
  | changes {e : DeskEvent} {s : DeskState}
    (apart : ∀ clientId, e.clientId? = some clientId → g.isWaiting clientId = false)
    (after : g.state.after? d e = some s) : Goes d g (.desk e) { g with state := s }

theorem goes_step? (h : step? d g event = some g') : Goes d g event g' := by
  cases event with
  | place o =>
    simp only [step?] at h
    split at h
    · rename_i hfree huntracked
      cases h
      exact .starts hfree huntracked
    · cases h
  | reply clientId r =>
    simp only [step?] at h
    split at h
    · rename_i hwaits
      cases h
      exact .replies hwaits
    · cases h
      exact .idles
  | desk e =>
    simp only [step?] at h
    split at h
    · cases h
    · rename_i hapart
      obtain ⟨s, hs, rfl⟩ := Option.map_eq_some_iff.mp h
      refine .changes (fun clientId he => ?_) hs
      rw [he] at hapart
      simpa using hapart

/-! ## What holds during a race -/

/-- A placement that waits has submitted its transaction. -/
def IsPast : Progress Placing Placing.Result → Prop
  | .ask _ _ w => w.stage.isSubmitted = true
  | _ => True

/-- What holds of every race: the order of a placement that has not submitted is new, and whatever
has submitted holds its sequence alone. -/
structure Sound (g : PlacingRace) : Prop where
  named : ∀ clientId pause request w, g.calls.find? clientId = some (.ask pause request w) →
    w.order.clientId = clientId
  new : ∀ clientId pause request w, g.calls.find? clientId = some (.ask pause request w) →
    w.stage.isSubmitted = false → g.state.IsNew clientId
  past : ∀ clientId blob, (clientId, blob) ∈ g.submitted →
    ∃ p, g.calls.find? clientId = some p ∧ IsPast p
  sole : ∀ clientId blob, (clientId, blob) ∈ g.submitted → g.state.register.Sole clientId

theorem sound_empty (s : DeskState) : Sound ⟨s, .empty, []⟩ :=
  ⟨(fun _ _ _ _ h => nomatch h), (fun _ _ _ _ h => nomatch h), (fun _ _ h => nomatch h),
    (fun _ _ h => nomatch h)⟩

theorem mem_submitted_turn {x : String} : (x, blob) ∈ (g.turn clientId t).submitted ↔
    (x, blob) ∈ g.submitted ∨ x = clientId ∧ blob ∈ t.2.submits := by
  simp only [PlacingRace.turn, List.mem_append, List.mem_map, Prod.mk.injEq]
  constructor
  · rintro (h | ⟨_, h, rfl, rfl⟩)
    · exact Or.inl h
    · exact Or.inr ⟨rfl, h⟩
  · rintro (h | ⟨rfl, h⟩)
    · exact Or.inl h
    · exact Or.inr ⟨_, h, rfl, rfl⟩

/-- What others have submitted they had submitted before. -/
theorem submitted_of_turn {x : String} (hx : x ≠ clientId)
    (h : (x, blob) ∈ (g.turn clientId t).submitted) : (x, blob) ∈ g.submitted := by
  rcases mem_submitted_turn.mp h with h | ⟨hc, _⟩
  · exact h
  · exact absurd hc hx

/-- A turn of a placement leaves the other placements and their orders as they are. -/
theorem Sound.turn (h : g.Sound)
    (hspares : g.state.register.Spares (some clientId) t.1.register)
    (hwaits : ∀ pause request w, t.2 = .ask pause request w →
      w.order.clientId = clientId ∧ (w.stage.isSubmitted = false → t.1.IsNew clientId))
    (hpast : ∀ blob, (clientId, blob) ∈ (g.turn clientId t).submitted →
      IsPast t.2 ∧ t.1.register.Sole clientId) : (g.turn clientId t).Sound := by
  refine ⟨fun x pause request w hx => ?_, fun x pause request w hx hw => ?_, fun x b hx => ?_,
    fun x b hx => ?_⟩
  · by_cases hc : x = clientId
    · subst hc
      rw [PlacingRace.turn, Table.find?_put_self] at hx
      exact (hwaits pause request w (Option.some.inj hx)).1
    · rw [PlacingRace.turn, Table.find?_put_of_ne _ _ hc] at hx
      exact h.named x pause request w hx
  · by_cases hc : x = clientId
    · subst hc
      rw [PlacingRace.turn, Table.find?_put_self] at hx
      exact (hwaits pause request w (Option.some.inj hx)).2 hw
    · rw [PlacingRace.turn, Table.find?_put_of_ne _ _ hc] at hx
      exact (h.new x pause request w hx hw).spared hspares fun heq =>
        hc (Option.some.inj heq).symm
  · by_cases hc : x = clientId
    · subst hc
      exact ⟨t.2, Table.find?_put_self _ _ _, (hpast b hx).1⟩
    · obtain ⟨p, hp, hpast⟩ := h.past x b (submitted_of_turn hc hx)
      exact ⟨p, (Table.find?_put_of_ne _ _ hc).trans hp, hpast⟩
  · by_cases hc : x = clientId
    · subst hc
      exact (hpast b hx).2
    · exact hspares.sole x (h.sole x b (submitted_of_turn hc hx))

/-- A turn of a placement that has not submitted. -/
theorem Sound.prepared (h : g.Sound) (hfresh : ∀ blob, (o.clientId, blob) ∉ g.submitted)
    (hnew : g.state.IsNew o.clientId) (ht : Placing.Prepares d o g.state t) :
    (g.turn o.clientId t).Sound := by
  refine h.turn ht.spares (fun pause request w hw => ?_) fun b hb => ?_
  · cases ht with
    | waits same order stage quiet =>
      cases hw
      rw [order]
      refine ⟨rfl, fun _ => ?_⟩
      obtain ⟨a, ha⟩ := hnew
      exact ⟨a, by rw [DeskState.order?, same.register]; exact ha⟩
    | halts same => cases hw
    | fails same => cases hw
    | loses register log numbered taken other => cases hw
    | submits log sign numbered assigned =>
      cases hw
      exact ⟨rfl, fun hstage => by cases hstage⟩
  · have hsubmits : b ∈ t.2.submits := by
      rcases mem_submitted_turn.mp hb with hb | ⟨_, hb⟩
      · exact absurd hb (hfresh b)
      · exact hb
    cases ht with
    | waits same order stage quiet =>
      rw [show (Progress.ask _ _ _ : Progress Placing Placing.Result).submits = _ from quiet]
        at hsubmits
      cases hsubmits
    | halts same => cases hsubmits
    | fails same => cases hsubmits
    | loses register log numbered taken other => cases hsubmits
    | submits log sign numbered assigned =>
      exact ⟨rfl, OrderRegister.sole_assign assigned (Or.inl rfl)⟩

/-- A turn of a placement that has submitted. -/
theorem Sound.settled (h : g.Sound) (ht : Placing.Settles d o g.state t) :
    (g.turn o.clientId t).Sound := by
  refine h.turn ht.spares (fun pause request w hw => ?_) fun b hb => ?_
  · cases ht with
    | waits order stage quiet =>
      cases hw
      rw [order]
      exact ⟨rfl, fun hstage => by rw [stage] at hstage; cases hstage⟩
    | halts => cases hw
    | fails => cases hw
    | stands fills moved => cases hw
  · have hpast : IsPast t.2 := by
      cases ht with
      | waits order stage quiet => exact stage
      | halts => trivial
      | fails => trivial
      | stands fills moved => trivial
    rcases mem_submitted_turn.mp hb with hb | ⟨_, hb⟩
    · exact ⟨hpast, ht.spares.sole _ (h.sole _ b hb)⟩
    · rw [ht.submits] at hb
      cases hb

/-- A change of the desk that is about no order of a placement that waits. -/
theorem Sound.changed (h : g.Sound) {about : Option String}
    (hspares : g.state.register.Spares about s.register)
    (hapart : ∀ clientId, about = some clientId → g.isWaiting clientId = false) :
    Sound { g with state := s } where
  named := h.named
  new clientId pause request w hw hstage := by
    refine (h.new clientId pause request w hw hstage).spared hspares fun habout => ?_
    have hwaits := hapart clientId habout
    rw [isWaiting, hw] at hwaits
    cases hwaits
  past := h.past
  sole clientId blob hsubmitted := hspares.sole clientId (h.sole clientId blob hsubmitted)

/-! ## A whole race -/

/-- No blob is that of a placement that has not submitted. -/
theorem Sound.fresh (h : g.Sound) (hp : ∀ p, g.calls.find? clientId = some p → ¬IsPast p)
    (blob : String) : (clientId, blob) ∉ g.submitted := by
  intro hsubmitted
  obtain ⟨p, hfound, hpast⟩ := h.past clientId blob hsubmitted
  exact hp p hfound hpast

theorem Sound.fresh_of_waits {pause : Nat} {request : Request} {w : Placing} (h : g.Sound)
    (hwaits : g.calls.find? clientId = some (.ask pause request w))
    (hstage : w.stage.isSubmitted = false) (blob : String) : (clientId, blob) ∉ g.submitted := by
  refine h.fresh (fun p hp hpast => ?_) blob
  obtain rfl := Option.some.inj (hwaits.symm.trans hp)
  rw [IsPast, hstage] at hpast
  cases hpast

/-- A placement starts on a desk that tracks its order. -/
theorem Sound.tracked (h : g.Sound) (hfree : g.calls.find? o.clientId = none) :
    Sound { g with state := g.state.track o.toOrder } := by
  refine h.changed (DeskState.spares_track g.state rfl) fun x hx => ?_
  obtain rfl : o.clientId = x := Option.some.inj hx
  rw [isWaiting, hfree]

theorem sound_step (hsigner : d.signer.IsFaithful) (h : g.Sound) (hg : Goes d g event g') :
    g'.Sound := by
  cases hg with
  | idles => exact h
  | starts free untracked =>
    exact (h.tracked free).prepared (h.fresh fun p hp => by rw [free] at hp; cases hp)
      (g.state.isNew_track _) (Placing.prepares_start hsigner g.state _)
  | @replies clientId r pause request w waits =>
    obtain rfl := h.named _ _ _ _ waits
    cases hstage : w.stage.isSubmitted with
    | false =>
      have hnew := h.new _ _ _ _ waits hstage
      exact h.prepared (h.fresh_of_waits waits hstage) hnew
        (Placing.prepares_resume hsigner hnew hstage r)
    | true => exact h.settled (Placing.settles_resume hstage r)
  | changes apart after => exact h.changed (DeskState.spares_after after) apart

theorem run?_cons (g : PlacingRace) :
    run? d g (event :: events) = (step? d g event).bind (run? d · events) :=
  List.foldlM_cons

theorem sound_run (hsigner : d.signer.IsFaithful) (h : g.Sound) (hrun : run? d g events = some g') :
    g'.Sound := by
  induction events generalizing g with
  | nil =>
    cases hrun
    exact h
  | cons event events ih =>
    rw [run?_cons] at hrun
    obtain ⟨g₁, hstep, hrest⟩ := Option.bind_eq_some_iff.mp hrun
    exact ih (sound_step hsigner h (goes_step? hstep)) hrest

/-- A placement that has come to an end submits nothing more. -/
theorem ended_step (h : Goes d g event g') (hp : g.calls.find? clientId = some p)
    (hover : Placing.isOver p = true) : g'.calls.find? clientId = some p ∧
      ((clientId, blob) ∈ g'.submitted → (clientId, blob) ∈ g.submitted) := by
  have hturn : ∀ x t, x ≠ clientId → (g.turn x t).calls.find? clientId = some p ∧
      ((clientId, blob) ∈ (g.turn x t).submitted → (clientId, blob) ∈ g.submitted) :=
    fun x t hx => ⟨(Table.find?_put_of_ne _ _ hx.symm).trans hp, submitted_of_turn hx.symm⟩
  cases h with
  | idles => exact ⟨hp, id⟩
  | changes apart after => exact ⟨hp, id⟩
  | starts free untracked =>
    refine hturn _ _ ?_
    rintro rfl
    rw [free] at hp
    cases hp
  | replies waits =>
    refine hturn _ _ ?_
    rintro rfl
    rw [waits] at hp
    cases hp
    cases hover

theorem ended_run (hp : g.calls.find? clientId = some p) (hover : Placing.isOver p = true)
    (hrun : run? d g events = some g') :
    (clientId, blob) ∈ g'.submitted → (clientId, blob) ∈ g.submitted := by
  induction events generalizing g with
  | nil =>
    cases hrun
    exact id
  | cons event events ih =>
    rw [run?_cons] at hrun
    obtain ⟨g₁, hstep, hrest⟩ := Option.bind_eq_some_iff.mp hrun
    obtain ⟨hp₁, hback⟩ := ended_step (goes_step? hstep) hp hover
    exact fun h => hback (ih hp₁ hrest h)

/-! ## Who submits -/

/-- What a placement comes to that is late for a sequence. It ends with an error that names a live
order with the sequence, and submits nothing, then or later. Its own order fails, and every other
order is as before. -/
structure Loses (d : Desk) (g g' : PlacingRace) (clientId : String) (n : UInt32) : Prop where
  refused : ∃ owner ∈ g.state.register.carrying n, owner.clientId ≠ clientId ∧
    g'.calls.find? clientId = some (.done (.error (.duplicateSequence clientId n owner.clientId)))
  quiet : ∀ later g'' blob, run? d g' later = some g'' → (clientId, blob) ∉ g''.submitted
  failed : ∃ a, g.state.order? clientId = some a ∧
    g'.state.order? clientId = some { a with state := .failed }
  others : ∀ x, x ≠ clientId → g'.state.order? x = g.state.order? x

theorem of_logged {x : String}
    (h : (g.turn x t).submitted = g.submitted ++ [(clientId, blob)]) :
    x = clientId ∧ blob ∈ t.2.submits := by
  have hlast : (clientId, blob) ∈ t.2.submits.map (x, ·) := by
    rw [List.append_cancel_left h]
    exact List.mem_singleton_self _
  obtain ⟨b, hb, heq⟩ := List.mem_map.mp hlast
  cases heq
  exact ⟨rfl, hb⟩

/-- A placement that submits holds the sequence of its transaction alone. -/
theorem holds_of_submission (hsigner : d.signer.IsFaithful) (h : g.Sound)
    (hg : Goes d g event g') (hlog : g'.submitted = g.submitted ++ [(clientId, blob)]) :
    Placing.Holds d g'.state clientId blob := by
  cases hg with
  | idles => simp at hlog
  | changes apart after => simp at hlog
  | @starts o free untracked =>
    obtain ⟨rfl, hblob⟩ := of_logged hlog
    exact (Placing.prepares_start hsigner g.state o).holds (g.state.isNew_track o) hblob
  | @replies x r pause request w waits =>
    obtain ⟨rfl, hblob⟩ := of_logged hlog
    obtain rfl := h.named _ _ _ _ waits
    cases hstage : w.stage.isSubmitted with
    | false =>
      have hnew := h.new _ _ _ _ waits hstage
      exact (Placing.prepares_resume hsigner hnew hstage r).holds hnew hblob
    | true =>
      rw [(Placing.settles_resume hstage r).submits] at hblob
      cases hblob

/-- A turn in which a placement ends for a live order that has its sequence. -/
theorem Sound.loses {pause : Nat} {request : Request} {w : Placing} {n : UInt32} {owner : Order}
    (h : g.Sound) (hwaits : g.calls.find? clientId = some (.ask pause request w))
    (hstage : w.stage.isSubmitted = false) (howner : owner ∈ g.state.register.carrying n)
    (hother : owner.clientId ≠ clientId)
    (hfailed : t.1.register = g.state.register.move clientId .failed)
    (hdone : t.2 = .done (.error (.duplicateSequence clientId n owner.clientId))) :
    Loses d g (g.turn clientId t) clientId n := by
  have hend : (g.turn clientId t).calls.find? clientId =
      some (.done (.error (.duplicateSequence clientId n owner.clientId))) := by
    rw [PlacingRace.turn, Table.find?_put_self, hdone]
  obtain ⟨a, ha, hpending, _⟩ := h.new clientId pause request w hwaits hstage
  have hlive : a.isLive = true := by simp [Order.isLive, hpending, OrderState.isTerminal]
  obtain ⟨hown, hothers⟩ := Placing.order?_of_failed ha hlive hfailed
  refine ⟨⟨owner, howner, hother, hend⟩, fun later g'' blob hlater hblob => ?_, ⟨a, ha, hown⟩,
    hothers⟩
  rcases mem_submitted_turn.mp (ended_run hend rfl hlater hblob) with hblob | ⟨_, hblob⟩
  · exact h.fresh_of_waits hwaits hstage blob hblob
  · rw [hdone] at hblob
    cases hblob

/-- Who signs a transaction submits it or has lost its sequence, as it is free or taken. -/
theorem decided_of_signed {signed : Transaction} {n : UInt32} (hsigner : d.signer.IsFaithful)
    (h : g.Sound) (hg : Goes d g event g') (hcaller : event.caller? = some clientId)
    (hsigned : g'.state.signed = g.state.signed ++ [signed]) (hn : signed.sequence = some n) :
    ((∃ a ∈ g.state.register.carrying n, a.clientId ≠ clientId) → Loses d g g' clientId n) ∧
    ((∀ a ∈ g.state.register.carrying n, a.clientId = clientId) →
      ∃ blob, g'.submitted = g.submitted ++ [(clientId, blob)]) := by
  cases hg with
  | idles => simp at hsigned
  | changes apart after => cases hcaller
  | @starts o free untracked =>
    rw [show (g.turn _ _).state.signed = _ from Placing.signed_start d g.state o] at hsigned
    simp at hsigned
  | @replies x r pause request w waits =>
    obtain rfl : x = clientId := Option.some.inj hcaller
    obtain rfl := h.named _ _ _ _ waits
    cases hstage : w.stage.isSubmitted with
    | true =>
      have hsame : (w.resume d g.state r).1.signed = g.state.signed :=
        (Placing.settles_resume hstage r).signed
      rw [show (g.turn _ _).state.signed = _ from hsame] at hsigned
      simp at hsigned
    | false =>
      have hnew := h.new _ _ _ _ waits hstage
      have hprepares := Placing.prepares_resume hsigner hnew hstage r
      have hspared := hprepares.of_signed hsigned hn
      generalize w.resume d g.state r = t at hspared ⊢
      rcases hspared with ⟨blob, hsubmits, hfree⟩ | ⟨owner, howner, hother, hfailed, hdone⟩
      · refine ⟨fun ⟨a, ha, hne⟩ => absurd (hfree a ha) hne, fun _ => ⟨blob, ?_⟩⟩
        rw [turn, hsubmits]
        rfl
      · exact ⟨fun _ => h.loses waits hstage howner hother hfailed hdone,
          fun hfree => absurd (hfree owner howner) hother⟩

/-- However placements under new ids overlap, and whatever else reaches the desk, the order of a
placement that has submitted shares its sequence with no other live order as long as it is live.
When a placement submits, its order still waits to be created, and is the only live one with the
sequence. A placement that has signed a transaction submits it unless another live order carries
the sequence, and otherwise it loses. -/
theorem no_two_live_orders_share_a_submitted_sequence (hsigner : d.signer.IsFaithful)
    (hrun : run? d ⟨s, .empty, []⟩ events = some g) :
    (∀ clientId blob n a b, (clientId, blob) ∈ g.submitted → a ∈ g.state.register.carrying n →
      b ∈ g.state.register.carrying n → a.clientId = clientId → b.clientId = clientId) ∧
    ∀ event g', step? d g event = some g' →
      (∀ clientId blob, g'.submitted = g.submitted ++ [(clientId, blob)] →
        Placing.Holds d g'.state clientId blob) ∧
      ∀ clientId t n, event.caller? = some clientId →
        g'.state.signed = g.state.signed ++ [t] → t.sequence = some n →
        ((∃ a ∈ g.state.register.carrying n, a.clientId ≠ clientId) → Loses d g g' clientId n) ∧
        ((∀ a ∈ g.state.register.carrying n, a.clientId = clientId) →
          ∃ blob, g'.submitted = g.submitted ++ [(clientId, blob)]) := by
  have hsound := sound_run hsigner (sound_empty s) hrun
  refine ⟨fun clientId blob n a b hsubmitted ha hb hid =>
    hsound.sole clientId blob hsubmitted n a ha hid b hb, fun event g' hstep => ?_⟩
  have hgoes := goes_step? hstep
  exact ⟨fun clientId blob hlog => holds_of_submission hsigner hsound hgoes hlog,
    fun clientId t n hcaller => decided_of_signed hsigner hsound hgoes hcaller⟩

/-! Two placements read the same sequence for their transactions. The first to sign has it. -/

def contendingEvents : List PlacingRaceEvent :=
  [.place Placing.limitOrder, .place { Placing.limitOrder with clientId := "b" },
    .reply "a" (.ok Cancelling.accountAnswer), .reply "b" (.ok Cancelling.accountAnswer),
    .reply "b" (.ok Cancelling.feeAnswer), .reply "a" (.ok Cancelling.feeAnswer),
    .reply "b" (.ok Cancelling.currentAnswer)]

def lateReply : PlacingRaceEvent := .reply "a" (.ok Cancelling.currentAnswer)

theorem first_to_sign_has_the_sequence : ∃ g g' t,
    run? Cancelling.signingDesk ⟨{}, .empty, []⟩ contendingEvents = some g ∧
    g.submitted = [("b", "B10B")] ∧
    step? Cancelling.signingDesk g lateReply = some g' ∧
    g'.state.signed = g.state.signed ++ [t] ∧ t.sequence = some 3 ∧
    Loses Cancelling.signingDesk g g' "a" 3 := by
  have hsigner : Cancelling.signingDesk.signer.IsFaithful := by
    rintro t signed h
    cases h
    rfl
  obtain ⟨g, g', t, hrun, hsubmitted, hstep, hsigned, hn, a, hcarrying, ha⟩ : ∃ g g' t,
      run? Cancelling.signingDesk ⟨{}, .empty, []⟩ contendingEvents = some g ∧
      g.submitted = [("b", "B10B")] ∧
      step? Cancelling.signingDesk g lateReply = some g' ∧
      g'.state.signed = g.state.signed ++ [t] ∧ t.sequence = some 3 ∧
      ∃ a, g.state.register.carrying 3 = [a] ∧ a.clientId = "b" :=
    ⟨_, _, _, rfl, rfl, rfl, rfl, rfl, _, rfl, rfl⟩
  have hrace := no_two_live_orders_share_a_submitted_sequence hsigner hrun
  have hlate := (hrace.2 lateReply g' hstep).2 "a" t 3 rfl hsigned hn
  refine ⟨g, g', t, hrun, hsubmitted, hstep, hsigned, hn, hlate.1 ⟨a, ?_, ?_⟩⟩
  · rw [hcarrying]
    exact List.mem_singleton_self _
  · rw [ha]
    decide

end PlacingRace

end OfferDesk
